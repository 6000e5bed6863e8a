import ClassOutline.Index
import ClassOutline.Proofs.Ordered
import Mathlib.Data.Finset.Card
import Mathlib.Data.List.Induction
/-
  ClassOutline.Proofs.Indexing — what an index knows after any changes.

  An index keeps two maps that must fit each other: the declarations of each name and the
  names of each file. `standing` says the same with one list: of every file the source that
  was indexed last, if it was not removed since, in the order of these indexings. An index
  represents such a list (`Represents`) if under every name it keeps the declarations of that
  name, in the order of the list, and under every file the names it declares. Removing and
  indexing a file keep this (`represents_remove`, `represents_put`), so it holds after any
  changes (`represents_after`), and `after_answers` reads off what questions are answered.
-/

namespace ClassOutline.Index

open ClassOutline.Text

/-! ## Changes -/

/-- What can be done to an index. -/
inductive Change where
  | index (file source : Text)
  | remove (file : Text)
  deriving DecidableEq, Repr

def Change.file : Change → Text
  | .index file _ => file
  | .remove file => file

def apply (i : Index) : Change → Index
  | .index file source => (i.indexSource file source).1
  | .remove file => i.remove file

/-- A fresh index after changes. -/
def after (cs : List Change) : Index := cs.foldl apply empty

/-- The indexed files with their sources: an indexing counts if no later change is about the
    same file. -/
def standing : List Change → List (Text × Text)
  | [] => []
  | .index file source :: cs =>
    if cs.any (·.file == file) then standing cs else (file, source) :: standing cs
  | .remove _ :: cs => standing cs

/-- The class-likes of a source, as declarations of a file. -/
def declaredIn (file source : Text) : List IndexEntry :=
  (Declarations.ofSource source).classes.map fun c => ⟨c.fqn, c.kind, file⟩

/-- All declarations of some files, file by file. -/
def declaredBy (files : List (Text × Text)) : List IndexEntry :=
  files.flatMap fun f => declaredIn f.1 f.2

/-- One more change takes its file off the list; if it indexes the file, that comes last. -/
theorem standing_append (cs : List Change) (c : Change) :
    standing (cs ++ [c]) = (standing cs).filter (·.1 != c.file) ++ standing [c] := by
  induction cs with
  | nil => rfl
  | cons d cs ih =>
    cases d with
    | remove file => simpa [standing] using ih
    | index file source =>
      rw [List.cons_append, standing, standing, List.any_append, ih]
      by_cases hany : cs.any (·.file == file) = true
      · simp [hany]
      · by_cases hfile : c.file = file
        · simp [hany, hfile]
        · have hne : file ≠ c.file := fun he => hfile he.symm
          simp [hany, hfile, hne]

/-! ## Lists under a name -/

/-- A list, unless it is empty. -/
def nonempty? {α : Type} (l : List α) : Option (List α) := if l.isEmpty then none else some l

theorem getD_nonempty? {α : Type} (l : List α) : (nonempty? l).getD [] = l := by
  cases l <;> rfl

theorem nonempty?_eq_some_iff {α : Type} {l m : List α} : nonempty? l = some m ↔ l = m ∧ m ≠ [] := by
  cases l with
  | nil =>
    simp only [nonempty?, List.isEmpty_nil, if_true, reduceCtorEq, false_iff, not_and, Decidable.not_not]
    exact fun h => h.symm
  | cons a l =>
    simp only [nonempty?, List.isEmpty_cons, Bool.false_eq_true, if_false, Option.some.injEq]
    exact ⟨fun h => ⟨h, h ▸ List.cons_ne_nil a l⟩, fun h => h.1⟩

theorem isSome_nonempty?_iff {α : Type} {l : List α} : (nonempty? l).isSome = true ↔ l ≠ [] := by
  cases l <;> simp [nonempty?]

theorem nonempty?_bind_filter {α : Type} (l : List α) (p : α → Bool) :
    ((nonempty? l).bind fun m => nonempty? (m.filter p)) = nonempty? (l.filter p) := by
  cases l <;> rfl

/-- The declarations of a name, which is given in lower case. -/
def under (k : Text) (es : List IndexEntry) : List IndexEntry := es.filter (key ·.fqn == k)

theorem under_append (k : Text) (as bs : List IndexEntry) : under k (as ++ bs) = under k as ++ under k bs :=
  List.filter_append ..

theorem under_filter (k : Text) (p : IndexEntry → Bool) (es : List IndexEntry) :
    under k (es.filter p) = (under k es).filter p := by
  rw [under, List.filter_comm]
  rfl

theorem get?_foldl_addEntry (owners : NameMap (List IndexEntry)) (es : List IndexEntry) (k : Text)
    (h : owners.get? k = nonempty? ((owners.get? k).getD [])) :
    (es.foldl addEntry owners).get? k = nonempty? ((owners.get? k).getD [] ++ under k es) := by
  induction es generalizing owners with
  | nil => rw [List.foldl_nil, under, List.filter_nil, List.append_nil, ← h]
  | cons e es ih =>
    have hadd : (addEntry owners e).get? k = nonempty? ((owners.get? k).getD [] ++ under k [e]) := by
      rw [addEntry, NameMap.get?_insert]
      by_cases hk : k = key e.fqn
      · subst hk
        simp [under, nonempty?]
      · have hne : (key e.fqn == k) = false := by simpa using fun he => hk he.symm
        rw [if_neg hk, under, List.filter_cons_of_neg (by simp [hne]), List.filter_nil, List.append_nil, ← h]
    rw [List.foldl_cons, ih (addEntry owners e) (by rw [hadd, getD_nonempty?]), hadd, getD_nonempty?,
      List.append_assoc, ← under_append, List.singleton_append]

/-! ## Representation -/

/-- The names a file declares, in lower case. -/
def keysOf (file source : Text) : List Text := (declaredIn file source).map (key ·.fqn)

structure Represents (i : Index) (files : List (Text × Text)) : Prop where
  /-- No file is listed twice. -/
  nodup : (files.map Prod.fst).Nodup
  owners : ∀ k, i.owners.get? k = nonempty? (under k (declaredBy files))
  names : ∀ file, i.files.get? file = (files.lookup file).map (keysOf file)

theorem represents_empty : Represents empty [] where
  nodup := .nil
  owners _ := rfl
  names _ := rfl

theorem declaredBy_filter (files : List (Text × Text)) (file : Text) :
    declaredBy (files.filter (·.1 != file)) = (declaredBy files).filter (·.file != file) := by
  induction files with
  | nil => rfl
  | cons f fs ih =>
    have hown : ∀ e ∈ declaredIn f.1 f.2, e.file = f.1 := by
      intro e he
      obtain ⟨c, -, rfl⟩ := List.mem_map.mp he
      rfl
    have hcons : declaredBy (f :: fs) = declaredIn f.1 f.2 ++ declaredBy fs := rfl
    rw [hcons, List.filter_append, ← ih]
    by_cases hf : f.1 = file
    · have hnone : (declaredIn f.1 f.2).filter (·.file != file) = [] := by
        rw [List.filter_eq_nil_iff]
        intro e he
        simp [hown e he, hf]
      rw [hnone, List.nil_append, List.filter_cons_of_neg (by simp [hf])]
    · have hall : (declaredIn f.1 f.2).filter (·.file != file) = declaredIn f.1 f.2 := by
        rw [List.filter_eq_self]
        intro e he
        simp [hown e he, hf]
      rw [hall, List.filter_cons_of_pos (by simp [hf])]
      rfl

theorem lookup_filter_ne (files : List (Text × Text)) (file f : Text) :
    (files.filter (·.1 != file)).lookup f = if f = file then none else files.lookup f := by
  induction files with
  | nil => simp
  | cons p fs ih =>
    obtain ⟨a, s⟩ := p
    by_cases ha : a = file
    · rw [List.filter_cons_of_neg (by simp [ha]), ih]
      by_cases hf : f = file
      · rw [if_pos hf, if_pos hf]
      · rw [if_neg hf, if_neg hf, lookup_cons_of_ne (ha ▸ hf)]
    · rw [List.filter_cons_of_pos (by simp [ha])]
      by_cases hfa : f = a
      · subst hfa
        rw [if_neg ha, List.lookup_cons_self, List.lookup_cons_self]
      · rw [lookup_cons_of_ne hfa, lookup_cons_of_ne hfa, ih]

/-- A name that a listed file declares is among those kept under the file. -/
theorem mem_keysOf {files : List (Text × Text)} (hnodup : (files.map Prod.fst).Nodup) {file source : Text}
    (hl : files.lookup file = some source) {e : IndexEntry} (he : e ∈ declaredBy files) (hf : e.file = file) :
    key e.fqn ∈ keysOf file source := by
  obtain ⟨p, hp, hep⟩ := List.mem_flatMap.mp he
  have hfile : p.1 = file := by
    obtain ⟨c, -, rfl⟩ := List.mem_map.mp hep
    exact hf
  have hsource : p.2 = source := by
    have hlp : files.lookup p.1 = some p.2 := lookup_eq_some_of_mem hnodup hp
    rw [hfile, hl] at hlp
    exact (Option.some.inj hlp).symm
  rw [hfile, hsource] at hep
  exact List.mem_map_of_mem hep

theorem under_filter_of_not_mem {files : List (Text × Text)} (hnodup : (files.map Prod.fst).Nodup)
    {file source k : Text} (hl : files.lookup file = some source) (hk : k ∉ keysOf file source) :
    under k ((declaredBy files).filter (·.file != file)) = under k (declaredBy files) := by
  rw [under_filter, List.filter_eq_self]
  intro e he
  obtain ⟨hmem, hkey⟩ := List.mem_filter.mp he
  have hne : e.file ≠ file := by
    intro hf
    exact hk (beq_iff_eq.mp hkey ▸ mem_keysOf hnodup hl hmem hf)
  simpa using hne

theorem represents_remove {i : Index} {files : List (Text × Text)} (h : Represents i files) (file : Text) :
    Represents (i.remove file) (files.filter (·.1 != file)) := by
  have hnodup : ((files.filter (·.1 != file)).map Prod.fst).Nodup :=
    h.nodup.sublist (List.filter_sublist.map _)
  unfold remove
  rw [h.names]
  cases hl : files.lookup file with
  | none =>
    -- a file that is not listed has nothing to take away
    have hfiles : files.filter (·.1 != file) = files := by
      rw [List.filter_eq_self]
      intro p hp
      have hne : p.1 ≠ file := by
        intro he
        have hsome := isSome_lookup_iff.mpr (List.mem_map_of_mem (f := Prod.fst) hp)
        rw [he, hl] at hsome
        cases hsome
      simpa using hne
    rw [hfiles]
    exact h
  | some source =>
    refine ⟨hnodup, fun k => ?_, fun f => ?_⟩
    · show (NameMap.filterMap _ i.owners).get? k = _
      rw [NameMap.get?_filterMap, h.owners, declaredBy_filter]
      by_cases hk : k ∈ keysOf file source
      · have hc : (keysOf file source).contains k = true := List.contains_iff_mem.mpr hk
        simp only [hc, if_true, under_filter]
        exact nonempty?_bind_filter (under k (declaredBy files)) (·.file != file)
      · have hc : (keysOf file source).contains k = false := by simpa using hk
        simp only [hc, Bool.false_eq_true, if_false]
        rw [under_filter_of_not_mem h.nodup hl hk]
        cases nonempty? (under k (declaredBy files)) <;> rfl
    · show (i.files.erase file).get? f = _
      rw [NameMap.get?_erase, lookup_filter_ne, h.names]
      by_cases hf : f = file
      · rw [if_pos hf, if_pos hf]
        rfl
      · rw [if_neg hf, if_neg hf]

theorem represents_put {i : Index} {files : List (Text × Text)} (h : Represents i files) (file source : Text) :
    Represents (i.indexSource file source).1 (files.filter (·.1 != file) ++ [(file, source)]) := by
  have hrest := represents_remove h file
  have hnot : file ∉ (files.filter (·.1 != file)).map Prod.fst := by
    intro hm
    obtain ⟨p, hp, he⟩ := List.mem_map.mp hm
    exact bne_iff_ne.mp (List.mem_filter.mp hp).2 he
  refine ⟨?_, fun k => ?_, fun f => ?_⟩
  · rw [List.map_append]
    refine List.nodup_append.mpr ⟨hrest.nodup, by simp, fun a ha b hb hab => ?_⟩
    have hb' : b = file := List.mem_singleton.mp hb
    rw [hab, hb'] at ha
    exact hnot ha
  · show ((declaredIn file source).foldl addEntry (i.remove file).owners).get? k = _
    have hsome : (i.remove file).owners.get? k = nonempty? (((i.remove file).owners.get? k).getD []) := by
      rw [hrest.owners, getD_nonempty?]
    rw [get?_foldl_addEntry _ _ _ hsome, hrest.owners, getD_nonempty?, ← under_append]
    simp [declaredBy]
  · show ((i.remove file).files.insert file (keysOf file source)).get? f = _
    rw [NameMap.get?_insert, hrest.names]
    by_cases hf : f = file
    · subst hf
      rw [if_pos rfl, List.lookup_append, lookup_eq_none_of_not_mem hnot]
      simp
    · rw [if_neg hf, List.lookup_append, lookup_cons_of_ne hf]
      simp

theorem represents_after (cs : List Change) : Represents (after cs) (standing cs) := by
  induction cs using List.reverseRecOn with
  | nil => exact represents_empty
  | append_singleton cs c ih =>
    have hafter : after (cs ++ [c]) = (after cs).apply c := by
      rw [after, List.foldl_append]
      rfl
    rw [hafter, standing_append]
    cases c with
    | index file source => exact represents_put ih file source
    | remove file =>
      have hnil : standing [.remove file] = [] := rfl
      rw [hnil, List.append_nil]
      exact represents_remove ih file

/-! ## Answers -/

theorem getLast?_of_nonempty? {α : Type} (l : List α) : (nonempty? l).bind List.getLast? = l.getLast? := by
  cases l <;> rfl

theorem mem_keys_of_represents {i : Index} {files : List (Text × Text)} (h : Represents i files) (k : Text) :
    k ∈ i.owners.keys ↔ ∃ e ∈ declaredBy files, key e.fqn = k := by
  rw [NameMap.mem_keys_iff, h.owners, isSome_nonempty?_iff, under, ne_eq, List.filter_eq_nil_iff]
  simp

theorem size_of_represents {i : Index} {files : List (Text × Text)} (h : Represents i files) :
    i.size = ((declaredBy files).map fun e => lower e.fqn).toFinset.card := by
  have hkeys : i.owners.keys.toFinset = ((declaredBy files).map fun e => lower e.fqn).toFinset := by
    ext k
    rw [List.mem_toFinset, List.mem_toFinset, mem_keys_of_represents h, List.mem_map]
    rfl
  rw [← hkeys, NameMap.keys, List.toFinset_card_of_nodup i.owners.nodup, List.length_map]
  rfl

theorem isEmpty_of_represents {i : Index} {files : List (Text × Text)} (h : Represents i files) :
    i.isEmpty = true ↔ declaredBy files = [] := by
  have hkeys : i.isEmpty = true ↔ i.owners.keys = [] := by
    rw [isEmpty, NameMap.isEmpty, List.isEmpty_iff, NameMap.keys, List.map_eq_nil_iff]
  rw [hkeys, List.eq_nil_iff_forall_not_mem, List.eq_nil_iff_forall_not_mem]
  constructor
  · intro hnone e he
    exact hnone (key e.fqn) ((mem_keys_of_represents h _).mpr ⟨e, he, rfl⟩)
  · intro hnone k hk
    obtain ⟨e, he, -⟩ := (mem_keys_of_represents h k).mp hk
    exact hnone e he

/-- After any changes an index answers as the list of files that are standing does: it knows
    the names these declare, a name stands for its last declaration, names are counted once
    whatever their case, and no name is kept without a declaration. Indexing a source tells
    how many class-likes it has. -/
theorem after_answers (cs : List Change) :
    (∀ question, (after cs).contains question = true ↔
        ∃ e ∈ declaredBy (standing cs), sameName e.fqn (dropSeparators question) = true) ∧
      (∀ question, (after cs).get? question =
        ((declaredBy (standing cs)).filter fun e => sameName e.fqn (dropSeparators question)).getLast?) ∧
      (after cs).size = ((declaredBy (standing cs)).map fun e => lower e.fqn).toFinset.card ∧
      ((after cs).isEmpty = true ↔ declaredBy (standing cs) = []) ∧
      (∀ kept ∈ (after cs).owners.entries, kept.2 ≠ []) ∧
      ∀ file source, ((after cs).indexSource file source).2 = (Declarations.ofSource source).classes.length := by
  have h := represents_after cs
  refine ⟨fun q => ?_, fun q => ?_, size_of_represents h, isEmpty_of_represents h, fun kept hkept => ?_,
    fun _ _ => rfl⟩
  · rw [contains, ← NameMap.mem_keys_iff, mem_keys_of_represents h]
    simp only [sameName, beq_iff_eq]
    rfl
  · rw [get?, h.owners, getLast?_of_nonempty?]
    rfl
  · have hget : (after cs).owners.get? kept.1 = some kept.2 := lookup_eq_some_of_mem (after cs).owners.nodup hkept
    rw [h.owners] at hget
    exact (nonempty?_eq_some_iff.mp hget).2

end ClassOutline.Index
