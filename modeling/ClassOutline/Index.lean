import ClassOutline.Declaration.OfTree
/-
  ClassOutline.Index — the class-likes of many files.

  Names are kept in lower case, each with its declarations in the order they were indexed;
  the last one answers. Indexing a file replaces what it declared before. A name is known
  for as long as some file declares it.
-/

namespace ClassOutline

open ClassOutline.Text

structure IndexEntry where
  fqn : Text
  kind : DeclarationKind
  file : Text
  deriving DecidableEq, Repr

structure Index where
  /-- The declarations of each name; never an empty list. -/
  owners : NameMap (List IndexEntry)
  /-- The names each file declares, repetitions included. -/
  files : NameMap (List Text)
  deriving DecidableEq, Repr

namespace Index

def empty : Index := ⟨.empty, .empty⟩

def key (fqn : Text) : Text := lower fqn

/-- What a question is looked up by: leading separators do not count. -/
def queryKey (fqn : Text) : Text := key (dropSeparators fqn)

/-- The declarations of a name other than a file's; absent if none is left. -/
def withoutFile (file : Text) (entries : List IndexEntry) : Option (List IndexEntry) :=
  let kept := entries.filter (·.file != file)
  if kept.isEmpty then none else some kept

def remove (i : Index) (file : Text) : Index :=
  match i.files.get? file with
  | none => i
  | some keys =>
    ⟨i.owners.filterMap fun k es => if keys.contains k then withoutFile file es else some es,
      i.files.erase file⟩

def addEntry (owners : NameMap (List IndexEntry)) (e : IndexEntry) : NameMap (List IndexEntry) :=
  owners.insert (key e.fqn) ((owners.get? (key e.fqn)).getD [] ++ [e])

def entriesOf (file : Text) (d : Declarations) : List IndexEntry :=
  d.classes.map fun c => ⟨c.fqn, c.kind, file⟩

/-- Puts the declarations of a file in place of those it had. -/
def put (i : Index) (file : Text) (d : Declarations) : Index :=
  let rest := i.remove file
  let entries := entriesOf file d
  ⟨entries.foldl addEntry rest.owners, rest.files.insert file (entries.map (key ·.fqn))⟩

/-- Indexes a source; also the number of its declarations. -/
def indexSource (i : Index) (file source : Text) : Index × Nat :=
  let d := Declarations.ofSource source
  (i.put file d, d.classes.length)

def get? (i : Index) (fqn : Text) : Option IndexEntry :=
  (i.owners.get? (queryKey fqn)).bind List.getLast?

def contains (i : Index) (fqn : Text) : Bool := (i.owners.get? (queryKey fqn)).isSome

def size (i : Index) : Nat := i.owners.size

def isEmpty (i : Index) : Bool := i.owners.isEmpty

/-- An index of sources under their file names, in order. -/
def ofSources (files : List (Text × Text)) : Index :=
  files.foldl (fun i f => (i.indexSource f.1 f.2).1) empty

end Index
end ClassOutline
