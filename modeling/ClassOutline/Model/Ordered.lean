import ClassOutline.Text.Basic
/-
  ClassOutline.Model.Ordered — sets and maps that remember the order of insertion.

  Inserting a known element or key moves nothing: a set stays as it is, a map gives the key
  its new value in its old place. That no element or key is repeated is part of the types.
-/

namespace ClassOutline

/-! ## Sets of names -/

/-- Distinct names in the order they were first inserted. -/
structure NameSet where
  items : List Text
  nodup : items.Nodup
  deriving DecidableEq, Repr

namespace NameSet

def empty : NameSet := ⟨[], .nil⟩

def insert (s : NameSet) (x : Text) : NameSet :=
  if h : x ∈ s.items then s
  else ⟨s.items ++ [x], by
    refine List.nodup_append.2 ⟨s.nodup, by simp, ?_⟩
    intro a ha b hb hab
    rw [List.mem_singleton] at hb
    exact h (hb ▸ hab ▸ ha)⟩

def ofList (xs : List Text) : NameSet := xs.foldl insert empty

instance : Inhabited NameSet := ⟨empty⟩

theorem items_insert (s : NameSet) (x : Text) :
    (s.insert x).items = if x ∈ s.items then s.items else s.items ++ [x] := by
  unfold insert; split <;> simp_all

end NameSet

/-! ## Maps from names -/

/-- The entries after giving `key` a value: in its place if it is there, else at the end. -/
def setEntry {α : Type} (key : Text) (value : α) : List (Text × α) → List (Text × α)
  | [] => [(key, value)]
  | e :: r => if e.1 = key then (key, value) :: r else e :: setEntry key value r

theorem keys_setEntry {α : Type} (key : Text) (value : α) (es : List (Text × α)) :
    (setEntry key value es).map Prod.fst =
      if key ∈ es.map Prod.fst then es.map Prod.fst else es.map Prod.fst ++ [key] := by
  induction es with
  | nil => rfl
  | cons e r ih =>
    unfold setEntry
    by_cases h : e.1 = key
    · simp [h]
    · have h' : ¬ key = e.1 := fun hk => h hk.symm
      simp only [h, if_false, List.map_cons, ih, List.mem_cons, h', false_or]
      split <;> simp

theorem nodup_keys_setEntry {α : Type} (key : Text) (value : α) {es : List (Text × α)}
    (h : (es.map Prod.fst).Nodup) : ((setEntry key value es).map Prod.fst).Nodup := by
  rw [keys_setEntry]
  split
  · exact h
  · rename_i hk
    refine List.nodup_append.2 ⟨h, by simp, ?_⟩
    intro a ha b hb hab
    rw [List.mem_singleton] at hb
    exact hk (hb ▸ hab ▸ ha)

/-- Values under distinct names, in the order the names were first inserted. -/
structure NameMap (α : Type) where
  entries : List (Text × α)
  nodup : (entries.map Prod.fst).Nodup
  deriving DecidableEq, Repr

namespace NameMap

variable {α : Type}

def empty : NameMap α := ⟨[], .nil⟩

instance : Inhabited (NameMap α) := ⟨empty⟩

def get? (m : NameMap α) (key : Text) : Option α := m.entries.lookup key

def insert (m : NameMap α) (key : Text) (value : α) : NameMap α :=
  ⟨setEntry key value m.entries, nodup_keys_setEntry key value m.nodup⟩

def ofList (es : List (Text × α)) : NameMap α := es.foldl (fun m e => m.insert e.1 e.2) empty

def keys (m : NameMap α) : List Text := m.entries.map Prod.fst

def size (m : NameMap α) : Nat := m.entries.length

def isEmpty (m : NameMap α) : Bool := m.entries.isEmpty

theorem keys_filterMap_sublist (f : Text → α → Option α) (es : List (Text × α)) :
    ((es.filterMap fun e => (f e.1 e.2).map fun v => (e.1, v)).map Prod.fst).Sublist
      (es.map Prod.fst) := by
  induction es with
  | nil => simp
  | cons e r ih =>
    cases h : f e.1 e.2 with
    | none => simpa [h] using ih.cons e.1
    | some v => simpa [h] using ih.cons_cons e.1

/-- Changes values under their keys; a key whose value is taken away goes with it. -/
def filterMap (f : Text → α → Option α) (m : NameMap α) : NameMap α :=
  ⟨m.entries.filterMap fun e => (f e.1 e.2).map fun v => (e.1, v),
    m.nodup.sublist (keys_filterMap_sublist f m.entries)⟩

def erase (m : NameMap α) (key : Text) : NameMap α :=
  m.filterMap fun k v => if k == key then none else some v

theorem keys_insert (m : NameMap α) (key : Text) (value : α) :
    (m.insert key value).keys = if key ∈ m.keys then m.keys else m.keys ++ [key] :=
  keys_setEntry key value m.entries

end NameMap
end ClassOutline
