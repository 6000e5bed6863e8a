import ClassOutline.Json.Reader
import ClassOutline.Json.Writer
import ClassOutline.Proofs.Text
/-
  ClassOutline.Proofs.Json.Documents — a document that is written is read back.

  A string is read piece by piece. The writer escapes one character at a time, so each makes
  one piece (`readPieces_escape`), and none of the pieces is half of a surrogate pair. Behind
  a string, a word or a closing bracket the reader stops, whatever follows; so a document is
  read back from in front of any text (`readValue_write`), and the items and members of its
  arrays and objects one by one. Every call takes a character or calls one that does, which
  is why twice the length of what is written is fuel enough.
-/

namespace ClassOutline.Json

open ClassOutline.Text

/-! ## Strings -/

/-- The piece a written character is read as. -/
def pieceOf (c : Char) : Piece :=
  if (shortEscape? c).isNone && c.toNat < 0x20 then .unit c.toNat else .char c

theorem unescape?_of_shortEscape? {c e : Char} (h : shortEscape? c = some e) : unescape? e = some c ∧ e ≠ 'u' := by
  unfold shortEscape? at h
  split at h <;> cases h <;> decide

theorem hexValue?_hexDigit : ∀ n < 16, hexValue? (hexDigit n) = some n := by decide

/-- The code point of a control character, read from the digits it is written with. -/
theorem fourHex?_hexDigit {n : Nat} (h : n < 0x20) :
    fourHex? '0' '0' (hexDigit (n / 16)) (hexDigit (n % 16)) = some n := by
  have hhigh := hexValue?_hexDigit (n / 16) (by omega)
  have hlow := hexValue?_hexDigit (n % 16) (by omega)
  have hzero : hexValue? '0' = some 0 := by decide
  simp only [fourHex?, hzero, hhigh, hlow, Option.bind_eq_bind, Option.bind_some, Option.pure_def]
  congr 1
  omega

theorem readPieces_cons_of_plain {c : Char} (hquote : c ≠ '"') (hslash : c ≠ '\\') (hle : 0x20 ≤ c.toNat) (r : Text) :
    readPieces (c :: r) = (readPieces r).map fun p => (.char c :: p.1, p.2) := by
  have hguard : (decide (c.toNat < 0x20) || c == '\\') = false := by
    rw [decide_eq_false (by omega), beq_false_of_ne hslash]
    rfl
  rw [readPieces.eq_5 c r hquote (fun _ _ _ _ _ h _ => hslash h) (fun _ _ h _ => hslash h), hguard]
  cases readPieces r <;> rfl

/-- A written character is read as one piece. -/
theorem readPieces_escape (c : Char) (r : Text) :
    readPieces (escape c ++ r) = (readPieces r).map fun p => (pieceOf c :: p.1, p.2) := by
  unfold escape pieceOf
  cases h : shortEscape? c with
  | some e =>
    obtain ⟨he, hu⟩ := unescape?_of_shortEscape? h
    show readPieces ('\\' :: e :: r) = _
    rw [readPieces.eq_4 e r (fun _ _ _ _ _ hx _ => hu hx), he]
    cases readPieces r <;> rfl
  | none =>
    by_cases hc : c.toNat < 0x20
    · simp only [hc, if_true, List.cons_append, List.nil_append]
      rw [readPieces, fourHex?_hexDigit hc]
      cases readPieces r <;> rfl
    · simp only [hc, if_false, List.singleton_append]
      have hquote : c ≠ '"' := by
        rintro rfl
        cases h
      have hslash : c ≠ '\\' := by
        rintro rfl
        cases h
      rw [readPieces_cons_of_plain hquote hslash (Nat.le_of_not_lt hc)]
      simp

theorem readPieces_quoted (t r : Text) :
    readPieces ((t.map escape).flatten ++ '"' :: r) = some (t.map pieceOf, r) := by
  induction t with
  | nil => simp [readPieces]
  | cons c t ih => rw [List.map_cons, List.flatten_cons, List.append_assoc, readPieces_escape, ih]; rfl

/-- A unit that is no surrogate is a character, whatever follows. -/
theorem assemble?_unit {n : Nat} (h : n < 0x20) (ps : List Piece) :
    assemble? (.unit n :: ps) = (assemble? ps).map (Char.ofNat n :: ·) := by
  have hhigh : isHighSurrogate n = false := by simp only [isHighSurrogate]; rw [decide_eq_false (by omega)]; rfl
  have hlow : isLowSurrogate n = false := by simp only [isLowSurrogate]; rw [decide_eq_false (by omega)]; rfl
  cases ps with
  | nil => simp [assemble?, hhigh, hlow]
  | cons p ps => cases p <;> simp [assemble?, hhigh, hlow]

theorem assemble?_map_pieceOf (t : Text) : assemble? (t.map pieceOf) = some t := by
  induction t with
  | nil => rfl
  | cons c t ih =>
    rw [List.map_cons, pieceOf]
    split
    · rename_i hc
      have hlt : c.toNat < 0x20 := of_decide_eq_true (Bool.and_eq_true_iff.mp hc).2
      rw [assemble?_unit hlt, ih, Char.ofNat_toNat]
      rfl
    · rw [assemble?, ih]
      rfl

theorem readString_quoted (t r : Text) : readString ((t.map escape).flatten ++ '"' :: r) = some (some t, r) := by
  simp [readString, readPieces_quoted, assemble?_map_pieceOf]

/-! ## Blanks -/

theorem isSpace_newLine (level : Nat) : ∀ c ∈ newLine level, isSpace c = true := by
  intro c hc
  rcases List.mem_cons.mp hc with rfl | hc
  · rfl
  · rw [List.eq_of_mem_replicate hc]
    rfl

theorem skipSpace_append {gap : Text} (h : ∀ c ∈ gap, isSpace c = true) (t : Text) :
    skipSpace (gap ++ t) = skipSpace t :=
  List.dropWhile_append_of_pos h

theorem skipSpace_cons {c : Char} (h : isSpace c = false) (t : Text) : skipSpace (c :: t) = c :: t :=
  List.dropWhile_cons_of_neg (by simp [h])

theorem readValue_append {gap : Text} (h : ∀ c ∈ gap, isSpace c = true) (fuel : Nat) (t : Text) :
    readValue fuel (gap ++ t) = readValue fuel t := by
  cases fuel with
  | zero => rfl
  | succ fuel => rw [readValue, readValue, skipSpace_append h]

/-! ## Documents -/

mutual

/-- Whether a document holds no number and no absent string. -/
def isTextual : Json → Bool
  | .null | .bool _ => true
  | .number _ => false
  | .str content => content.isSome
  | .array items => areTextual items
  | .object members => areTextualMembers members

def areTextual : List Json → Bool
  | [] => true
  | x :: xs => x.isTextual && areTextual xs

def areTextualMembers : List (Option Text × Json) → Bool
  | [] => true
  | (key, value) :: ms => key.isSome && value.isTextual && areTextualMembers ms

end

@[simp] theorem isTextual_array (items : List Json) : (array items).isTextual = items.all isTextual := by
  show areTextual items = _
  induction items with
  | nil => rfl
  | cons x xs ih => rw [areTextual, ih, List.all_cons]

@[simp] theorem isTextual_record (members : List (Text × Json)) :
    (record members).isTextual = members.all fun m => m.2.isTextual := by
  show areTextualMembers _ = _
  induction members with
  | nil => rfl
  | cons m ms ih => rw [List.map_cons, areTextualMembers, ih, List.all_cons, Option.isSome_some, Bool.true_and]

/-- A document begins with neither a blank nor the end of an array. -/
theorem write_head {j : Json} (h : j.isTextual = true) (level : Nat) :
    ∃ c r, write level j = c :: r ∧ isSpace c = false ∧ c ≠ ']' := by
  cases j with
  | null => exact ⟨'n', _, rfl, rfl, by decide⟩
  | bool b => cases b <;> exact ⟨_, _, rfl, rfl, by decide⟩
  | number digits => cases h
  | str content => exact ⟨'"', _, rfl, rfl, by decide⟩
  | array items => cases items <;> exact ⟨'[', _, rfl, rfl, by decide⟩
  | object members => cases members <;> exact ⟨'{', _, rfl, rfl, by decide⟩

theorem length_newLine (level : Nat) : 1 ≤ (newLine level).length := by simp [newLine]

/-- An array that does not end at once is read item by item. -/
theorem readValue_array {r : Text} (h : ∀ r', skipSpace r ≠ ']' :: r') (fuel : Nat) :
    readValue (fuel + 1) ('[' :: r) = (readItems fuel r).map fun p => (.array p.1, p.2) := by
  rw [readValue, skipSpace_cons rfl]
  -- of the inner match `h` leaves the last branch
  simp only
  cases readItems fuel r <;> rfl

theorem readValue_object {r : Text} (h : ∀ r', skipSpace r ≠ '}' :: r') (fuel : Nat) :
    readValue (fuel + 1) ('{' :: r) = (readMembers fuel r).map fun p => (.object p.1, p.2) := by
  rw [readValue, skipSpace_cons rfl]
  simp only
  cases readMembers fuel r <;> rfl

/-- Words are read up to their end. -/
theorem readValue_null (fuel : Nat) (rest : Text) : readValue (fuel + 1) ("null".toList ++ rest) = some (.null, rest) := rfl

theorem readValue_bool (fuel : Nat) (b : Bool) (rest : Text) :
    readValue (fuel + 1) ((if b then "true".toList else "false".toList) ++ rest) = some (.bool b, rest) := by
  cases b <;> rfl

theorem readValue_quoted (fuel : Nat) (t rest : Text) :
    readValue (fuel + 1) (quoted t ++ rest) = some (.str (some t), rest) := by
  have hquoted : quoted t ++ rest = '"' :: ((t.map escape).flatten ++ '"' :: rest) := by simp [quoted]
  rw [hquoted, readValue, skipSpace_cons rfl]
  show (readString _).bind _ = _
  rw [readString_quoted]
  rfl

/-- Behind an item comes another one or the end of the array. -/
theorem readItems_comma {fuel : Nat} {t r r' : Text} {x : Json} (hx : readValue fuel t = some (x, r))
    (hr : skipSpace r = ',' :: r') : readItems (fuel + 1) t = (readItems fuel r').map fun p => (x :: p.1, p.2) := by
  rw [readItems, hx]
  simp only [Option.bind_eq_bind, Option.bind_some, hr]
  cases readItems fuel r' <;> rfl

theorem readItems_end {fuel : Nat} {t r rest : Text} {x : Json} (hx : readValue fuel t = some (x, r))
    (hr : skipSpace r = ']' :: rest) : readItems (fuel + 1) t = some ([x], rest) := by
  rw [readItems, hx]
  simp only [Option.bind_eq_bind, Option.bind_some, hr]
  rfl

theorem quoted_append (t r : Text) : quoted t ++ r = '"' :: ((t.map escape).flatten ++ '"' :: r) := by
  simp [quoted]

/-- Behind a member comes another one or the end of the object. -/
theorem readMembers_comma {fuel : Nat} {gap key t r r' : Text} {value : Json} (hgap : ∀ c ∈ gap, isSpace c = true)
    (hv : readValue fuel t = some (value, r)) (hr : skipSpace r = ',' :: r') :
    readMembers (fuel + 1) (gap ++ (quoted key ++ ':' :: t)) =
      (readMembers fuel r').map fun p => ((some key, value) :: p.1, p.2) := by
  rw [readMembers, skipSpace_append hgap, quoted_append, skipSpace_cons rfl]
  simp only [readString_quoted, Option.bind_eq_bind, Option.bind_some, skipSpace_cons (c := ':') rfl, hv, hr]
  cases readMembers fuel r' <;> rfl

theorem readMembers_end {fuel : Nat} {gap key t r rest : Text} {value : Json} (hgap : ∀ c ∈ gap, isSpace c = true)
    (hv : readValue fuel t = some (value, r)) (hr : skipSpace r = '}' :: rest) :
    readMembers (fuel + 1) (gap ++ (quoted key ++ ':' :: t)) = some ([(some key, value)], rest) := by
  rw [readMembers, skipSpace_append hgap, quoted_append, skipSpace_cons rfl]
  simp only [readString_quoted, Option.bind_eq_bind, Option.bind_some, skipSpace_cons (c := ':') rfl, hv, hr]
  rfl

theorem writeMember_append (level : Nat) (key : Text) (value : Json) (r : Text) :
    writeMember level (some key, value) ++ r = quoted key ++ ':' :: ([' '] ++ (write level value ++ r)) := by
  have hcolon : ": ".toList = [':', ' '] := rfl
  simp [writeMember, hcolon]

/-! ## Writing, then reading -/

/-- A document is read back from in front of any text. -/
def ReadsBack (j : Json) : Prop :=
  ∀ level fuel rest, 2 * (write level j).length ≤ fuel → readValue fuel (write level j ++ rest) = some (j, rest)

theorem readsBack_null : ReadsBack .null := by
  intro level fuel rest h
  obtain ⟨fuel, rfl⟩ : ∃ f, fuel = f + 1 := ⟨fuel - 1, by simp [write] at h; omega⟩
  exact readValue_null fuel rest

theorem readsBack_bool (b : Bool) : ReadsBack (.bool b) := by
  intro level fuel rest h
  obtain ⟨fuel, rfl⟩ : ∃ f, fuel = f + 1 := ⟨fuel - 1, by cases b <;> simp [write] at h <;> omega⟩
  exact readValue_bool fuel b rest

theorem readsBack_str (t : Text) : ReadsBack (.str (some t)) := by
  intro level fuel rest h
  obtain ⟨fuel, rfl⟩ : ∃ f, fuel = f + 1 := ⟨fuel - 1, by simp [write, quoted] at h; omega⟩
  exact readValue_quoted fuel t rest

mutual

theorem readsBack_of_isTextual : ∀ (j : Json), j.isTextual = true → ReadsBack j
  | .null, _ => readsBack_null
  | .bool b, _ => readsBack_bool b
  | .number _, h => by cases h
  | .str (some t), _ => readsBack_str t
  | .str none, h => by cases h
  | .array [], _ => by
    intro level fuel rest h
    obtain ⟨fuel, rfl⟩ : ∃ f, fuel = f + 1 := ⟨fuel - 1, by simp [write] at h; omega⟩
    rfl
  | .array (x :: xs), h => by
    intro level fuel rest hfuel
    obtain ⟨hx, hxs⟩ := Bool.and_eq_true_iff.mp h
    simp only [write, List.length_append, List.length_cons, List.length_nil] at hfuel
    obtain ⟨fuel, rfl⟩ : ∃ f, fuel = f + 1 := ⟨fuel - 1, by omega⟩
    obtain ⟨c, r, hwrite, hspace, hend⟩ := write_head hx (level + 1)
    have hitems := readItems_write x (readsBack_of_isTextual x hx) xs hxs (level + 1) level fuel rest (by
      simp only [List.length_append]
      omega)
    simp only [write, List.cons_append, List.append_assoc, List.nil_append]
    rw [readValue_array, hitems]
    · rfl
    · intro r'
      rw [skipSpace_append (isSpace_newLine _), hwrite, List.cons_append, skipSpace_cons hspace]
      exact fun he => hend (List.cons.inj he).1
  | .object [], _ => by
    intro level fuel rest h
    obtain ⟨fuel, rfl⟩ : ∃ f, fuel = f + 1 := ⟨fuel - 1, by simp [write] at h; omega⟩
    rfl
  | .object ((none, _) :: _), h => by cases h
  | .object ((some key, value) :: ms), h => by
    intro level fuel rest hfuel
    obtain ⟨hvalue, hms⟩ := Bool.and_eq_true_iff.mp h
    simp only [write, List.length_append, List.length_cons, List.length_nil] at hfuel
    obtain ⟨fuel, rfl⟩ : ∃ f, fuel = f + 1 := ⟨fuel - 1, by omega⟩
    have hmembers := readMembers_write key value (readsBack_of_isTextual value hvalue) ms hms (level + 1) level fuel rest (by
      simp only [List.length_append]
      omega)
    simp only [write, List.cons_append, List.append_assoc, List.nil_append]
    rw [readValue_object, hmembers]
    · rfl
    · intro r'
      rw [skipSpace_append (isSpace_newLine _), writeMember_append, quoted_append, skipSpace_cons rfl]
      exact fun he => absurd (List.cons.inj he).1 (by decide)

/-- The items of an array from its first line to its end. -/
theorem readItems_write (x : Json) (hx : ReadsBack x) : ∀ (xs : List Json), areTextual xs = true →
    ∀ level outer fuel rest, 2 * (newLine level ++ (write level x ++ writeItems level xs)).length ≤ fuel →
      readItems fuel (newLine level ++ (write level x ++ (writeItems level xs ++ (newLine outer ++ ']' :: rest)))) =
        some (x :: xs, rest)
  | [], _ => by
    intro level outer fuel rest hfuel
    have hline := length_newLine level
    simp only [List.length_append] at hfuel
    obtain ⟨fuel, rfl⟩ : ∃ f, fuel = f + 1 := ⟨fuel - 1, by omega⟩
    refine readItems_end (r := newLine outer ++ ']' :: rest) ?_ ?_
    · rw [readValue_append (isSpace_newLine level), hx level fuel _ (by omega)]
      rfl
    · rw [skipSpace_append (isSpace_newLine outer), skipSpace_cons rfl]
  | y :: ys, h => by
    intro level outer fuel rest hfuel
    obtain ⟨hy, hys⟩ := Bool.and_eq_true_iff.mp h
    have hline := length_newLine level
    simp only [writeItems, List.length_append, List.length_cons] at hfuel
    obtain ⟨fuel, rfl⟩ : ∃ f, fuel = f + 1 := ⟨fuel - 1, by omega⟩
    have hrest := readItems_write y (readsBack_of_isTextual y hy) ys hys level outer fuel rest (by
      simp only [List.length_append]
      omega)
    simp only [writeItems, List.cons_append, List.append_assoc]
    rw [readItems_comma (x := x) ?_ (skipSpace_cons rfl _), hrest]
    · rfl
    · rw [readValue_append (isSpace_newLine level), hx level fuel _ (by omega)]

/-- The members of an object from its first line to its end. -/
theorem readMembers_write (key : Text) (value : Json) (hvalue : ReadsBack value) :
    ∀ (ms : List (Option Text × Json)), areTextualMembers ms = true →
      ∀ level outer fuel rest,
        2 * (newLine level ++ (writeMember level (some key, value) ++ writeMembers level ms)).length ≤ fuel →
        readMembers fuel (newLine level ++
            (writeMember level (some key, value) ++ (writeMembers level ms ++ (newLine outer ++ '}' :: rest)))) =
          some ((some key, value) :: ms, rest)
  | [], _ => by
    intro level outer fuel rest hfuel
    have hline := length_newLine level
    simp only [writeMember, List.length_append] at hfuel
    obtain ⟨fuel, rfl⟩ : ∃ f, fuel = f + 1 := ⟨fuel - 1, by omega⟩
    rw [writeMember_append]
    refine readMembers_end (isSpace_newLine level) (r := newLine outer ++ '}' :: rest) ?_ ?_
    · rw [readValue_append (by simp [isSpace]), hvalue level fuel _ (by omega)]
      rfl
    · rw [skipSpace_append (isSpace_newLine outer), skipSpace_cons rfl]
  | (none, _) :: _, h => by cases h
  | (some k, v) :: ms, h => by
    intro level outer fuel rest hfuel
    obtain ⟨hv, hms⟩ := Bool.and_eq_true_iff.mp h
    have hline := length_newLine level
    simp only [writeMembers, writeMember, List.length_append, List.length_cons] at hfuel
    obtain ⟨fuel, rfl⟩ : ∃ f, fuel = f + 1 := ⟨fuel - 1, by omega⟩
    have hrest := readMembers_write k v (readsBack_of_isTextual v hv) ms hms level outer fuel rest (by
      simp only [writeMember, List.length_append]
      omega)
    simp only [writeMembers, List.append_assoc, List.cons_append]
    rw [writeMember_append, readMembers_comma (isSpace_newLine level) ?_ (skipSpace_cons rfl _), hrest]
    · rfl
    · rw [readValue_append (by simp [isSpace]), hvalue level fuel _ (by omega)]

end

/-- The one document of a text that it was written to. -/
theorem read?_pretty {j : Json} (h : j.isTextual = true) : read? j.pretty = some j := by
  have hread := readsBack_of_isTextual j h 0 (2 * (write 0 j).length + 2) [] (by omega)
  rw [List.append_nil] at hread
  rw [read?, pretty, hread]
  rfl

end ClassOutline.Json
