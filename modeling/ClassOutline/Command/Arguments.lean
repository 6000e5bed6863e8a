import ClassOutline.Text.Basic
/-
  ClassOutline.Command.Arguments — the command line.

  `parse` reads arguments from left to right. A value is checked only when the next argument
  is understood, or at the end: an unknown argument, a flag with a value or one file too many
  is reported even if the option before it has a bad value. `--` ends the options.
-/

namespace ClassOutline.Command

open ClassOutline.Text

/-- Why a command line says nothing to do. -/
inductive Usage where
  | missingFile
  | unknownArgument
  | badValue
  | notANumber
  | repeated
  | unwantedValue
  | help
  | version
  deriving DecidableEq, Repr

inductive Format where
  | source
  | json
  deriving DecidableEq, Repr

structure Arguments where
  file : Text
  format : Format
  indentSpaces : Option Nat
  noOpenTag : Bool
  scope : List Text
  deriving DecidableEq, Repr

/-- The options that take a value. -/
inductive Opt where
  | format
  | indentSpaces
  | scope
  deriving DecidableEq, Repr

/-- What has been named but not yet checked. -/
inductive Pending where
  | nothing
  | file (path : Text)
  | option (o : Opt) (value : Option Text)
  deriving DecidableEq, Repr

structure State where
  file : Option Text := none
  format : Option Format := none
  indentSpaces : Option Nat := none
  noOpenTag : Bool := false
  scope : List Text := []
  pending : Pending := .nothing
  /-- Whether a file has been named, checked or not. -/
  namedFile : Bool := false
  deriving DecidableEq, Repr

/-! ## Values -/

/-- The largest number an option takes. -/
def maxNumber : Nat := 18446744073709551615

def digitsValue (ds : Text) : Nat := ds.foldl (fun n d => n * 10 + (d.toNat - '0'.toNat)) 0

/-- A decimal number of one machine word, with a plus sign or none. -/
def number? (t : Text) : Option Nat :=
  let ds := dropHead ['+'] t
  if ds.isEmpty || !ds.all Char.isDigit || maxNumber < digitsValue ds then none
  else some (digitsValue ds)

def format? (t : Text) : Option Format :=
  if t == "php".toList then some .source
  else if t == "json".toList then some .json
  else none

/-- A path has a character at least. -/
def path (t : Text) : Except Usage Text := if t.isEmpty then .error .badValue else .ok t

/-- Gives an option its value; only `scope` may be given twice. -/
def State.set (s : State) (o : Opt) (value : Text) : Except Usage State :=
  match o with
  | .format =>
    if s.format.isSome then .error .repeated
    else match format? value with
      | some f => .ok { s with format := some f }
      | none => .error .badValue
  | .indentSpaces =>
    if s.indentSpaces.isSome then .error .repeated
    else match number? value with
      | some n => .ok { s with indentSpaces := some n }
      | none => .error .notANumber
  | .scope => do
    let p ← path value
    return { s with scope := s.scope ++ [p] }

/-- Checks what is pending. -/
def State.settle (s : State) : Except Usage State :=
  let rest := { s with pending := .nothing }
  match s.pending with
  | .nothing => .ok s
  | .file p => do
    let p ← path p
    return { rest with file := some p }
  | .option _ none => .error .badValue
  | .option o (some v) => rest.set o v

/-! ## Arguments -/

def optionNamed? (name : Text) : Option Opt :=
  if name == "format".toList then some .format
  else if name == "indent-spaces".toList then some .indentSpaces
  else if name == "scope".toList then some .scope
  else none

/-- A flag: it takes no value. -/
def State.flag (s : State) (name : Text) : Except Usage State := do
  let s ← s.settle
  if name == "help".toList then .error .help
  else if name == "version".toList then .error .version
  else if s.noOpenTag then .error .repeated
  else .ok { s with noOpenTag := true }

def flags : List Text := ["no-open-tag".toList, "help".toList, "version".toList]

/-- An argument behind two dashes. -/
def State.long (s : State) (argument : Text) : Except Usage State :=
  let name := argument.takeWhile (· != '=')
  let attached := if argument.any (· == '=') then some (argument.drop (name.length + 1)) else none
  if flags.contains name then
    if attached.isSome then .error .unwantedValue else s.flag name
  else
    match optionNamed? name with
    | none => .error .unknownArgument
    | some o => do
      let s ← s.settle
      match attached with
      | some v => s.set o v
      | none => return { s with pending := .option o none }

/-- An argument behind one dash: its first letter decides. -/
def State.short (s : State) (letter : Char) : Except Usage State :=
  if letter == 'h' then s.flag "help".toList
  else if letter == 'V' then s.flag "version".toList
  else .error .unknownArgument

/-- A plain argument that no option waits for. -/
def State.positional (s : State) (argument : Text) : Except Usage State :=
  if s.namedFile then .error .unknownArgument
  else do
    let s ← s.settle
    return { s with pending := .file argument, namedFile := true }

def State.argument (s : State) (argument : Text) : Except Usage State :=
  match argument, s.pending with
  | '-' :: '-' :: name, _ => s.long name
  | '-' :: letter :: _, _ => s.short letter
  | _, .option o none => .ok { s with pending := .option o (some argument) }
  | _, _ => s.positional argument

def readAll : State → List Text → Except Usage State
  | s, [] => s.settle
  | s, a :: rest =>
    if a == "--".toList then do
      let s ← rest.foldlM State.positional s
      s.settle
    else do
      let s ← s.argument a
      readAll s rest

def parse (arguments : List Text) : Except Usage Arguments := do
  let s ← readAll {} arguments
  match s.file with
  | none => .error .missingFile
  | some file => return ⟨file, s.format.getD .source, s.indentSpaces, s.noOpenTag, s.scope⟩

end ClassOutline.Command
