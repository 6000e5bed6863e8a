import ClassOutline.Model.Basic
import Mathlib.Data.List.Induction
/-
  ClassOutline.Proofs.Ordered — lookups in ordered maps, and files as lists of classes.

  A set or map that is filled with the items or entries of another is that other one
  (`ofList_items`, `ofList_entries`). An ordered map is told by its keys and its lookups
  (`entries_eq_map_keys`). So a file is told by its namespaces and the classes of each:
  adding a class changes the classes of its own namespace only (`classes_add`) and adds the
  namespace at the end if it is new (`keys_add`).
-/

namespace ClassOutline

/-! ## Sets -/

namespace NameSet

/-- Names that are new are added at the end, in their order. -/
theorem items_foldl_insert (xs : List Text) (s : NameSet) (h : (s.items ++ xs).Nodup) :
    (xs.foldl insert s).items = s.items ++ xs := by
  induction xs generalizing s with
  | nil => simp
  | cons x xs ih =>
    have hnew : x ∉ s.items := by
      rw [List.nodup_append] at h
      exact fun hmem => h.2.2 x hmem x List.mem_cons_self rfl
    have hinsert : (s.insert x).items = s.items ++ [x] := by rw [items_insert, if_neg hnew]
    rw [List.foldl_cons, ih, hinsert, List.append_assoc, List.singleton_append]
    rwa [hinsert, List.append_assoc, List.singleton_append]

theorem eq_of_items_eq {s t : NameSet} (h : s.items = t.items) : s = t := by
  cases s
  cases t
  cases h
  rfl

/-- A set is made of its items. -/
theorem ofList_items (s : NameSet) : ofList s.items = s :=
  eq_of_items_eq (items_foldl_insert s.items empty (by simpa [empty] using s.nodup))

end NameSet

/-! ## Maps -/

theorem lookup_cons_of_ne {α : Type} {k a : Text} (h : k ≠ a) (v : α) (r : List (Text × α)) :
    ((a, v) :: r).lookup k = r.lookup k := by
  rw [List.lookup_cons, beq_eq_false_iff_ne.mpr h]

theorem lookup_setEntry {α : Type} (key k : Text) (value : α) (es : List (Text × α)) :
    (setEntry key value es).lookup k = if k = key then some value else es.lookup k := by
  induction es with
  | nil =>
    by_cases h : k = key
    · simp [setEntry, h]
    · rw [setEntry, lookup_cons_of_ne h, if_neg h]
  | cons e r ih =>
    obtain ⟨a, v⟩ := e
    rw [setEntry]
    by_cases ha : a = key
    · subst ha
      by_cases h : k = a
      · simp [h]
      · rw [if_pos rfl, if_neg h, lookup_cons_of_ne h, lookup_cons_of_ne h]
    · rw [if_neg ha]
      by_cases h : k = a
      · subst h
        rw [if_neg ha, List.lookup_cons_self, List.lookup_cons_self]
      · rw [lookup_cons_of_ne h, lookup_cons_of_ne h, ih]

theorem isSome_lookup_iff {α : Type} {k : Text} {es : List (Text × α)} :
    (es.lookup k).isSome = true ↔ k ∈ es.map Prod.fst := by
  rw [List.lookup_isSome_iff, List.mem_map]
  constructor
  · intro h
    obtain ⟨p, hp, hk⟩ := h
    exact ⟨p, hp, (beq_iff_eq.mp hk).symm⟩
  · intro h
    obtain ⟨p, hp, hk⟩ := h
    exact ⟨p, hp, beq_iff_eq.mpr hk.symm⟩

theorem lookup_eq_none_of_not_mem {α : Type} {k : Text} {es : List (Text × α)} (h : k ∉ es.map Prod.fst) :
    es.lookup k = none :=
  Option.not_isSome_iff_eq_none.mp fun hs => h (isSome_lookup_iff.mp hs)

theorem lookup_eq_some_of_mem {α : Type} {es : List (Text × α)} (h : (es.map Prod.fst).Nodup) {e : Text × α}
    (he : e ∈ es) : es.lookup e.1 = some e.2 := by
  induction es with
  | nil => cases he
  | cons d r ih =>
    obtain ⟨hnot, hr⟩ := List.nodup_cons.mp h
    rcases List.mem_cons.mp he with rfl | he
    · exact List.lookup_cons_self
    · have hne : e.1 ≠ d.1 := fun heq => hnot (heq ▸ List.mem_map_of_mem he)
      rw [← ih hr he]
      exact lookup_cons_of_ne hne d.2 r

theorem lookup_filterMap {α : Type} (f : Text → α → Option α) (k : Text) {es : List (Text × α)}
    (h : (es.map Prod.fst).Nodup) :
    (es.filterMap fun e => (f e.1 e.2).map fun v => (e.1, v)).lookup k = (es.lookup k).bind (f k) := by
  induction es with
  | nil => rfl
  | cons e r ih =>
    obtain ⟨a, v⟩ := e
    obtain ⟨hnot, hr⟩ := List.nodup_cons.mp h
    by_cases hk : k = a
    · subst hk
      rw [List.lookup_cons_self, Option.bind_some]
      cases hv : f k v with
      | some w => simp [hv]
      | none =>
        rw [List.filterMap_cons_none (by simp [hv]), ih hr, lookup_eq_none_of_not_mem hnot]
        rfl
    · rw [lookup_cons_of_ne hk, ← ih hr]
      cases hv : f a v with
      | some w => simp [hv, lookup_cons_of_ne hk]
      | none => rw [List.filterMap_cons_none (by simp [hv])]

theorem setEntry_of_not_mem {α : Type} {key : Text} (value : α) {es : List (Text × α)} (h : key ∉ es.map Prod.fst) :
    setEntry key value es = es ++ [(key, value)] := by
  induction es with
  | nil => rfl
  | cons e r ih =>
    rw [List.map_cons, List.mem_cons, not_or] at h
    rw [setEntry, if_neg (fun he => h.1 he.symm), ih h.2, List.cons_append]

namespace NameMap

variable {α : Type}

theorem get?_insert (m : NameMap α) (key k : Text) (value : α) :
    (m.insert key value).get? k = if k = key then some value else m.get? k :=
  lookup_setEntry key k value m.entries

theorem get?_filterMap (m : NameMap α) (f : Text → α → Option α) (k : Text) :
    (m.filterMap f).get? k = (m.get? k).bind (f k) :=
  lookup_filterMap f k m.nodup

theorem get?_erase (m : NameMap α) (key k : Text) :
    (m.erase key).get? k = if k = key then none else m.get? k := by
  rw [erase, get?_filterMap]
  by_cases h : k = key
  · cases m.get? k <;> simp [h]
  · cases m.get? k <;> simp [h]

theorem mem_keys_iff (m : NameMap α) (k : Text) : k ∈ m.keys ↔ (m.get? k).isSome = true :=
  isSome_lookup_iff.symm

/-- Entries under keys that are new are added at the end, in their order. -/
theorem entries_foldl_insert (es : List (Text × α)) (m : NameMap α) (h : ((m.entries ++ es).map Prod.fst).Nodup) :
    (es.foldl (fun m e => m.insert e.1 e.2) m).entries = m.entries ++ es := by
  induction es generalizing m with
  | nil => simp
  | cons e es ih =>
    have hnew : e.1 ∉ m.entries.map Prod.fst := by
      rw [List.map_append, List.map_cons, List.nodup_append] at h
      exact fun hmem => h.2.2 e.1 hmem e.1 List.mem_cons_self rfl
    have hinsert : (m.insert e.1 e.2).entries = m.entries ++ [e] := setEntry_of_not_mem e.2 hnew
    rw [List.foldl_cons, ih, hinsert, List.append_assoc, List.singleton_append]
    rwa [hinsert, List.append_assoc, List.singleton_append]

theorem eq_of_entries_eq {m n : NameMap α} (h : m.entries = n.entries) : m = n := by
  cases m
  cases n
  cases h
  rfl

/-- A map is made of its entries. -/
theorem ofList_entries (m : NameMap α) : ofList m.entries = m :=
  eq_of_entries_eq (entries_foldl_insert m.entries empty (by simpa [empty] using m.nodup))

end NameMap

theorem entries_eq_of_nodup {α : Type} (es : List (Text × List α)) (h : (es.map Prod.fst).Nodup) :
    es = (es.map Prod.fst).map fun k => (k, (es.lookup k).getD []) := by
  induction es with
  | nil => rfl
  | cons e r ih =>
    obtain ⟨a, v⟩ := e
    obtain ⟨hnot, hr⟩ := List.nodup_cons.mp h
    rw [List.map_cons, List.map_cons]
    congr 1
    · simp
    · conv => lhs; rw [ih hr]
      apply List.map_congr_left
      intro k hk
      have hne : ¬ k = a := by
        intro heq
        subst heq
        exact hnot hk
      rw [lookup_cons_of_ne hne]

theorem NameMap.entries_eq_map_keys {α : Type} (m : NameMap (List α)) :
    m.entries = m.keys.map fun k => (k, (m.get? k).getD []) :=
  entries_eq_of_nodup m.entries m.nodup

theorem eraseDups_concat {α : Type} [BEq α] [LawfulBEq α] [DecidableEq α] (l : List α) (x : α) :
    (l ++ [x]).eraseDups = if x ∈ l.eraseDups then l.eraseDups else l.eraseDups ++ [x] := by
  rw [List.eraseDups_append]
  by_cases h : x ∈ l
  · rw [if_pos (List.mem_eraseDups.mpr h)]
    simp [List.removeAll, h]
  · rw [if_neg (fun hm => h (List.mem_eraseDups.mp hm))]
    simp [List.removeAll, h, List.eraseDups_cons]

/-! ## Files -/

namespace FileModel

theorem classes_add (f : FileModel) (scope s : Text) (c : ClassModel) :
    (f.add scope c).classes s = if s = scope then f.classes scope ++ [c] else f.classes s := by
  show ((f.groups.insert scope (f.classes scope ++ [c])).get? s).getD [] = _
  rw [NameMap.get?_insert]
  by_cases h : s = scope
  · rw [if_pos h, if_pos h]
    rfl
  · rw [if_neg h, if_neg h]
    rfl

theorem keys_add (f : FileModel) (scope : Text) (c : ClassModel) :
    (f.add scope c).groups.keys =
      if scope ∈ f.groups.keys then f.groups.keys else f.groups.keys ++ [scope] :=
  NameMap.keys_insert f.groups scope _

theorem length_flatMap_setEntry {α : Type} (key : Text) (c : α) (es : List (Text × List α)) :
    ((setEntry key ((es.lookup key).getD [] ++ [c]) es).flatMap Prod.snd).length =
      (es.flatMap Prod.snd).length + 1 := by
  induction es with
  | nil => rfl
  | cons e r ih =>
    obtain ⟨k, v⟩ := e
    rw [setEntry]
    by_cases h : k = key
    · subst h
      simp only [List.lookup_cons_self, Option.getD_some, if_true, List.flatMap_cons, List.length_append,
        List.length_singleton]
      omega
    · have hlookup : ((k, v) :: r).lookup key = r.lookup key := lookup_cons_of_ne (fun he => h he.symm) v r
      rw [hlookup, if_neg h, List.flatMap_cons, List.flatMap_cons, List.length_append, List.length_append, ih]
      omega

theorem classCount_add (f : FileModel) (scope : Text) (c : ClassModel) :
    (f.add scope c).classCount = f.classCount + 1 :=
  length_flatMap_setEntry scope c f.groups.entries

theorem mem_entries_iff (f : FileModel) (g : Text × List ClassModel) :
    g ∈ f.groups.entries ↔ g.1 ∈ f.groups.keys ∧ g.2 = f.classes g.1 := by
  rw [NameMap.entries_eq_map_keys, List.mem_map]
  constructor
  · intro h
    obtain ⟨scope, hs, rfl⟩ := h
    exact ⟨hs, rfl⟩
  · intro h
    exact ⟨g.1, h.1, Prod.ext rfl h.2.symm⟩

theorem classNames_eq (f : FileModel) :
    f.classNames = f.groups.keys.map fun s => (s, (f.classes s).map (·.name)) := by
  unfold classNames
  rw [NameMap.entries_eq_map_keys, List.map_map]
  rfl

/-- Adds classes to their namespaces, one by one. -/
def addPairs (f : FileModel) (ps : List (Text × ClassModel)) : FileModel :=
  ps.foldl (fun f p => f.add p.1 p.2) f

theorem classes_addPairs (ps : List (Text × ClassModel)) (f : FileModel) (s : Text) :
    (f.addPairs ps).classes s = f.classes s ++ (ps.filter (·.1 == s)).map Prod.snd := by
  induction ps generalizing f with
  | nil => simp [addPairs]
  | cons p ps ih =>
    show ((f.add p.1 p.2).addPairs ps).classes s = _
    rw [ih, classes_add]
    by_cases h : s = p.1
    · subst h
      simp
    · have hne : (p.1 == s) = false := by simpa using fun he => h he.symm
      simp [h, hne]

theorem classCount_addPairs (ps : List (Text × ClassModel)) (f : FileModel) :
    (f.addPairs ps).classCount = f.classCount + ps.length := by
  induction ps generalizing f with
  | nil => rfl
  | cons p ps ih =>
    show ((f.add p.1 p.2).addPairs ps).classCount = _
    rw [ih, classCount_add, List.length_cons]
    omega

theorem keys_addPairs (ps : List (Text × ClassModel)) :
    (empty.addPairs ps).groups.keys = (ps.map Prod.fst).eraseDups := by
  induction ps using List.reverseRecOn with
  | nil => rfl
  | append_singleton ps p ih =>
    have hadd : empty.addPairs (ps ++ [p]) = (empty.addPairs ps).add p.1 p.2 := by
      simp [addPairs]
    rw [hadd, keys_add, ih, List.map_append]
    exact (eraseDups_concat _ p.1).symm

end FileModel
end ClassOutline
