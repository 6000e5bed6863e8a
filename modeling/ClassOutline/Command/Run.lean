import ClassOutline.Command.Arguments
import ClassOutline.Extraction
import ClassOutline.Index
import ClassOutline.Layout.File
import ClassOutline.Model.Format
/-
  ClassOutline.Command.Run — what the program does.

  Files that give scope are read first, in order, then the file to outline; the first that
  cannot be read or outlined ends the run. `report` is what the program shows: its exit
  code, its output, and what it says about an error.
-/

namespace ClassOutline.Command

open ClassOutline.Text

/-! ## Files -/

/-- What is stored under a name. -/
inductive Content where
  | text (t : Text)
  | bytes (bs : List UInt8)
  | directory
  deriving DecidableEq, Repr

/-- Files and directories under their paths. -/
abbrev Files := List (Text × Content)

def splitPath : Text → List Text
  | [] => [[]]
  | '/' :: r => [] :: splitPath r
  | c :: r =>
    match splitPath r with
    | [] => [[c]]
    | p :: ps => (c :: p) :: ps

/-- A path without the steps that lead nowhere. -/
def pathNames (p : Text) : List Text := (splitPath p).filter fun s => !s.isEmpty && s != ['.']

def up : Text := "..".toList

/-- What stands under names from the working directory on: something that is stored, or a
    directory around it. -/
def Files.under? (files : Files) (names : List Text) : Option Content :=
  match List.find? (pathNames ·.1 == names) files with
  | some (_, content) => some content
  | none =>
    if names.isEmpty || files.any (fun f => names.isPrefixOf (pathNames f.1)) then some .directory
    else none

/-- Follows the steps of a path from a place, whose names are listed last first. Only a
    directory leads on; nothing is known of what lies outside the working directory. -/
def Files.follow (files : Files) : List Text → List Text → Option Content
  | place, [] => files.under? place.reverse
  | place, step :: steps =>
    match files.under? place.reverse with
    | some .directory =>
      if step.isEmpty || step == ['.'] then files.follow place steps
      else if step != up then files.follow (step :: place) steps
      else
        match place with
        | _ :: outer => files.follow outer steps
        | [] => if steps.all fun s => s.isEmpty || s == ['.'] || s == up then some .directory else none
    | _ => none

/-- What a path leads to. -/
def Files.find? (files : Files) (p : Text) : Option Content :=
  match List.find? (·.1 == p) files with
  | some (_, content) => some content
  | none => if p.head? == some '/' then none else files.follow [] (splitPath p)

def decode? (bs : List UInt8) : Option Text := (String.fromUTF8? ⟨bs.toArray⟩).map String.toList

def Files.read (files : Files) (p : Text) : Except ExtractError Text :=
  match files.find? p with
  | none => .error (.sourceNotFound p)
  | some .directory => .error (.unreadable p .isDirectory)
  | some (.text t) => .ok t
  | some (.bytes bs) =>
    match decode? bs with
    | some t => .ok t
    | none => .error (.unreadable p .notUtf8)

/-! ## Running -/

/-- The index of the files that give scope. -/
def indexFiles (files : Files) : Index → List Text → Except ExtractError Index
  | i, [] => .ok i
  | i, p :: ps => do
    let source ← files.read p
    indexFiles files (i.indexSource p source).1 ps

def Arguments.layout (a : Arguments) : Layout.Options :=
  ⟨match a.indentSpaces with | some n => .spaces n | none => .tab, !a.noOpenTag⟩

def Arguments.render (a : Arguments) (f : FileModel) : Text :=
  match a.format with
  | .source => Layout.file a.layout f
  | .json => f.toJson ++ ['\n']

def run (files : Files) (a : Arguments) : Except ExtractError Text := do
  let index ← indexFiles files .empty a.scope
  let source ← files.read a.file
  let model ← extract source index.contains
  return a.render model

/-! ## Reporting -/

structure Report where
  exit : Nat
  output : Text
  /-- What is said about the error that ended the run. -/
  complaint : Text
  deriving DecidableEq, Repr

def errorMark : Text := "error: ".toList

/-- The last line of the complaint that is marked as an error. -/
def Report.errorLine (r : Report) : Option Text :=
  ((lines r.complaint).filter (startsWith · errorMark)).getLast?

def versionText : Text := "phpgen 0.1.0\n".toList

def helpText : Text :=
  ("Extract PHP class declarations and print them back as source\n\n" ++
   "Usage: phpgen [OPTIONS] <FILE>\n\n" ++
   "Arguments:\n  <FILE>  PHP file to extract classes from\n\n" ++
   "Options:\n" ++
   "      --format <FORMAT>    Output format [default: php] [possible values: php, json]\n" ++
   "      --indent-spaces <N>  Indent generated code with N spaces instead of tabs\n" ++
   "      --no-open-tag        Omit the leading `<?php` tag\n" ++
   "      --scope <FILE>       File whose declarations resolve parent and interface names (repeatable)\n" ++
   "  -h, --help               Print help\n" ++
   "  -V, --version            Print version\n").toList

def reportRun (files : Files) (a : Arguments) : Report :=
  match run files a with
  | .ok output => ⟨0, output, []⟩
  | .error e => ⟨1, [], errorMark ++ e.message⟩

/-- The report on a command line. -/
def report (files : Files) (arguments : List Text) : Report :=
  match parse arguments with
  | .ok a => reportRun files a
  | .error .help => ⟨0, helpText, []⟩
  | .error .version => ⟨0, versionText, []⟩
  | .error _ => ⟨2, [], []⟩

end ClassOutline.Command
