import ClassOutline.Json.Value
/-
  ClassOutline.Json.Reader — JSON text as documents.

  `read?` accepts one document with blanks around it and nothing else. Strings hold no bare
  control character; an escape that names half of a surrogate pair leaves the string
  absent. Numbers have no superfluous zero and a digit on each side of a point.
-/

namespace ClassOutline.Json

open ClassOutline.Text

def isSpace (c : Char) : Bool := c == ' ' || c == '\n' || c == '\t' || c == '\r'

def skipSpace (t : Text) : Text := t.dropWhile isSpace

/-! ## Strings -/

def hexValue? (c : Char) : Option Nat :=
  if '0' ≤ c && c ≤ '9' then some (c.toNat - '0'.toNat)
  else if 'a' ≤ c && c ≤ 'f' then some (c.toNat - 'a'.toNat + 10)
  else if 'A' ≤ c && c ≤ 'F' then some (c.toNat - 'A'.toNat + 10)
  else none

def fourHex? (a b c d : Char) : Option Nat := do
  let a ← hexValue? a
  let b ← hexValue? b
  let c ← hexValue? c
  let d ← hexValue? d
  return ((a * 16 + b) * 16 + c) * 16 + d

/-- The character a letter stands for behind a backslash. -/
def unescape? (c : Char) : Option Char :=
  match c with
  | '"' => some '"'
  | '\\' => some '\\'
  | '/' => some '/'
  | 'n' => some '\n'
  | 'r' => some '\r'
  | 't' => some '\t'
  | 'b' => some '\x08'
  | 'f' => some '\x0c'
  | _ => none

/-- A piece of a string: a character, or a UTF-16 unit from an escape. -/
inductive Piece where
  | char (c : Char)
  | unit (n : Nat)
  deriving DecidableEq, Repr

/-- The pieces of a string up to its closing quote, and what follows it. -/
def readPieces : Text → Option (List Piece × Text)
  | [] => none
  | '"' :: r => some ([], r)
  | '\\' :: 'u' :: a :: b :: c :: d :: r => do
    let n ← fourHex? a b c d
    let (ps, rest) ← readPieces r
    return (.unit n :: ps, rest)
  | '\\' :: e :: r => do
    let c ← unescape? e
    let (ps, rest) ← readPieces r
    return (.char c :: ps, rest)
  | c :: r =>
    if c.toNat < 0x20 || c == '\\' then none
    else do
      let (ps, rest) ← readPieces r
      return (.char c :: ps, rest)

def isHighSurrogate (n : Nat) : Bool := 0xd800 ≤ n && n < 0xdc00

def isLowSurrogate (n : Nat) : Bool := 0xdc00 ≤ n && n < 0xe000

/-- The text of the pieces, if every surrogate has its other half. -/
def assemble? : List Piece → Option Text
  | [] => some []
  | .char c :: ps => (assemble? ps).map (c :: ·)
  | [.unit n] => if isHighSurrogate n || isLowSurrogate n then none else some [Char.ofNat n]
  | .unit n :: .unit m :: ps =>
    if isHighSurrogate n then
      if isLowSurrogate m then
        (assemble? ps).map (Char.ofNat (0x10000 + (n - 0xd800) * 0x400 + (m - 0xdc00)) :: ·)
      else none
    else if isLowSurrogate n then none
    else (assemble? (.unit m :: ps)).map (Char.ofNat n :: ·)
  | .unit n :: .char c :: ps =>
    if isHighSurrogate n || isLowSurrogate n then none
    else (assemble? (.char c :: ps)).map (Char.ofNat n :: ·)

/-- A string behind its opening quote. -/
def readString (t : Text) : Option (Option Text × Text) := do
  let (ps, rest) ← readPieces t
  return (assemble? ps, rest)

/-! ## Numbers -/

def someDigits (t : Text) : Option (Text × Text) :=
  let ds := t.takeWhile Char.isDigit
  if ds.isEmpty then none else some (ds, t.drop ds.length)

/-- One zero, or digits that begin with another. -/
def readInteger (t : Text) : Option (Text × Text) := do
  let (ds, rest) ← someDigits t
  if ds.head? == some '0' && 1 < ds.length then none else some (ds, rest)

def readFraction (t : Text) : Option (Text × Text) :=
  match t with
  | '.' :: r => do
    let (ds, rest) ← someDigits r
    return ('.' :: ds, rest)
  | _ => some ([], t)

def readExponent (t : Text) : Option (Text × Text) :=
  match t with
  | e :: r =>
    if e == 'e' || e == 'E' then
      let sign := (r.take 1).filter fun c => c == '+' || c == '-'
      do
        let (ds, rest) ← someDigits (r.drop sign.length)
        return (e :: sign ++ ds, rest)
    else some ([], t)
  | [] => some ([], t)

def readNumber (t : Text) : Option (Text × Text) := do
  let sign := (t.take 1).filter (· == '-')
  let (whole, t) ← readInteger (t.drop sign.length)
  let (fraction, t) ← readFraction t
  let (exponent, t) ← readExponent t
  return (sign ++ whole ++ fraction ++ exponent, t)

/-! ## Documents -/

mutual

/-- One document, blanks before it skipped. -/
def readValue : Nat → Text → Option (Json × Text)
  | 0, _ => none
  | fuel + 1, t =>
    match skipSpace t with
    | [] => none
    | '"' :: r => do
      let (s, rest) ← readString r
      return (.str s, rest)
    | '[' :: r =>
      match skipSpace r with
      | ']' :: rest => some (.array [], rest)
      | _ => do
        let (xs, rest) ← readItems fuel r
        return (.array xs, rest)
    | '{' :: r =>
      match skipSpace r with
      | '}' :: rest => some (.object [], rest)
      | _ => do
        let (ms, rest) ← readMembers fuel r
        return (.object ms, rest)
    | c :: r =>
      match after? "null".toList (c :: r) with
      | some rest => some (.null, rest)
      | none =>
        match after? "true".toList (c :: r) with
        | some rest => some (.bool true, rest)
        | none =>
          match after? "false".toList (c :: r) with
          | some rest => some (.bool false, rest)
          | none => do
            let (digits, rest) ← readNumber (c :: r)
            return (.number digits, rest)

/-- The items of an array up to its bracket. -/
def readItems : Nat → Text → Option (List Json × Text)
  | 0, _ => none
  | fuel + 1, t => do
    let (x, r) ← readValue fuel t
    match skipSpace r with
    | ',' :: r =>
      let (xs, rest) ← readItems fuel r
      return (x :: xs, rest)
    | ']' :: rest => return ([x], rest)
    | _ => none

/-- The members of an object up to its brace. -/
def readMembers : Nat → Text → Option (List (Option Text × Json) × Text)
  | 0, _ => none
  | fuel + 1, t =>
    match skipSpace t with
    | '"' :: r => do
      let (key, r) ← readString r
      match skipSpace r with
      | ':' :: r =>
        let (value, r) ← readValue fuel r
        match skipSpace r with
        | ',' :: r =>
          let (ms, rest) ← readMembers fuel r
          return ((key, value) :: ms, rest)
        | '}' :: rest => return ([(key, value)], rest)
        | _ => none
      | _ => none
    | _ => none

end

/-- The one document of a text. Every call of the reader that takes no character calls one
    that does, so twice the length bounds their nesting. -/
def read? (t : Text) : Option Json := do
  let (j, rest) ← readValue (2 * t.length + 2) t
  if (skipSpace rest).isEmpty then some j else none

end ClassOutline.Json
