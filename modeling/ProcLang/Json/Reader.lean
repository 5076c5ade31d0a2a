import ProcLang.Json.Value

/-!
# Reading JSON text

The reader accepts strict JSON: no comments, no trailing commas, no leading
zeros, white space limited to space, tab, carriage return and newline, and no
control character inside a string. Nothing may follow the value. There is no
limit on nesting here.

Each rule returns what is left of the text, which is shorter than what it
started with; that is what makes the recursion end.
-/

set_option autoImplicit false

namespace ProcLang.Json

/-! ## White space -/

/-- White space between the parts of a value. -/
def isSpace (c : Char) : Bool :=
  c == ' ' || c == '\t' || c == '\n' || c == '\r'

/-- Drop leading white space. -/
def skipSpace (source : List Char) : List Char :=
  source.dropWhile isSpace

theorem length_skipSpace_le (source : List Char) :
    (skipSpace source).length ≤ source.length :=
  (List.dropWhile_suffix isSpace).length_le

/-! ## Strings -/

/-- A part of a string: a character, or a 16-bit unit given by an escape. -/
inductive Piece where
  | char (c : Char)
  | unit (n : Nat)
  deriving DecidableEq, Repr, Inhabited

/-- The character a one-letter escape stands for. -/
def ofEscape? : Char → Option Char
  | '"' => some '"'
  | '\\' => some '\\'
  | '/' => some '/'
  | 'b' => some '\x08'
  | 'f' => some '\x0c'
  | 'n' => some '\n'
  | 'r' => some '\r'
  | 't' => some '\t'
  | _ => none

/-- The value of a hexadecimal digit of either case. -/
def hexValue? (c : Char) : Option Nat :=
  if '0' ≤ c ∧ c ≤ '9' then some (c.toNat - '0'.toNat)
  else if 'a' ≤ c ∧ c ≤ 'f' then some (c.toNat - 'a'.toNat + 10)
  else if 'A' ≤ c ∧ c ≤ 'F' then some (c.toNat - 'A'.toNat + 10)
  else none

/-- The value of four hexadecimal digits. -/
def unitValue? (first second third fourth : Char) : Option Nat :=
  match hexValue? first, hexValue? second, hexValue? third, hexValue? fourth with
  | some a, some b, some c, some d => some (((a * 16 + b) * 16 + c) * 16 + d)
  | _, _, _, _ => none

/-- The parts of a string after its opening quote, and what follows it. -/
def readPieces : List Char → Option (List Piece × List Char)
  | [] => none
  | '"' :: rest => some ([], rest)
  | '\\' :: 'u' :: first :: second :: third :: fourth :: rest =>
      match unitValue? first second third fourth, readPieces rest with
      | some n, some (pieces, after) => some (.unit n :: pieces, after)
      | _, _ => none
  | '\\' :: c :: rest =>
      match ofEscape? c, readPieces rest with
      | some escaped, some (pieces, after) => some (.char escaped :: pieces, after)
      | _, _ => none
  | c :: rest =>
      if c.toNat < 0x20 then none
      else
        match readPieces rest with
        | some (pieces, after) => some (.char c :: pieces, after)
        | none => none

/-- Whether a unit is the first half of a surrogate pair. -/
def isLeading (n : Nat) : Bool := 0xD800 ≤ n && n < 0xDC00

/-- Whether a unit is the second half of a surrogate pair. -/
def isTrailing (n : Nat) : Bool := 0xDC00 ≤ n && n < 0xE000

/-- The characters that the parts of a string denote, if every half of a
surrogate pair has its other half. -/
def joinPieces : List Piece → Option (List Char)
  | [] => some []
  | .char c :: rest => (joinPieces rest).map (c :: ·)
  | .unit first :: .unit second :: rest =>
      if isLeading first then
        if isTrailing second then
          (joinPieces rest).map
            (Char.ofNat (0x10000 + (first - 0xD800) * 0x400 + (second - 0xDC00)) :: ·)
        else none
      else if isTrailing first then none
      else (joinPieces (.unit second :: rest)).map (Char.ofNat first :: ·)
  | .unit n :: rest =>
      if isLeading n || isTrailing n then none
      else (joinPieces rest).map (Char.ofNat n :: ·)

/-- The text of a string after its opening quote, and what follows it. -/
def readString (source : List Char) : Option (Option String × List Char) :=
  match readPieces source with
  | some (pieces, after) => some ((joinPieces pieces).map String.ofList, after)
  | none => none

theorem length_readPieces_lt {source : List Char} {pieces : List Piece} {after : List Char}
    (read : readPieces source = some (pieces, after)) : after.length < source.length := by
  fun_induction readPieces source generalizing pieces after with
  | case2 rest =>
    obtain ⟨_, rfl⟩ := by simpa using read
    exact Nat.lt_succ_self _
  | case3 _ _ _ _ rest _ _ _ found _ ih =>
    obtain ⟨_, rfl⟩ := by simpa using read
    have := ih found
    simp only [List.length_cons]
    omega
  | case5 _ rest _ _ _ _ found _ ih =>
    obtain ⟨_, rfl⟩ := by simpa using read
    have := ih found
    simp only [List.length_cons]
    omega
  | case8 _ rest _ _ _ _ _ _ found ih =>
    obtain ⟨_, rfl⟩ := by simpa using read
    exact Nat.lt_succ_of_lt (ih found)
  | _ => simp at read

theorem length_readString_lt {source : List Char} {content : Option String} {after : List Char}
    (read : readString source = some (content, after)) : after.length < source.length := by
  unfold readString at read
  split at read
  next pieces after' found =>
    obtain ⟨_, rfl⟩ := by simpa using read
    exact length_readPieces_lt found
  next => simp at read

/-! ## Numbers -/

/-- A run of digits without a leading zero, and what follows it. -/
def readWhole (source : List Char) : Option (List Char × List Char) :=
  match source.takeWhile Decimal.isDigit with
  | [] => none
  | '0' :: _ :: _ => none
  | run => some (run, source.dropWhile Decimal.isDigit)

/-- A fraction, if there is one: a point and at least one digit. -/
def readFraction : List Char → Option (List Char × List Char)
  | '.' :: rest =>
      match rest.takeWhile Decimal.isDigit with
      | [] => none
      | run => some ('.' :: run, rest.dropWhile Decimal.isDigit)
  | source => some ([], source)

/-- The sign of an exponent, if there is one. -/
def readSign : List Char → List Char × List Char
  | '+' :: rest => (['+'], rest)
  | '-' :: rest => (['-'], rest)
  | source => ([], source)

/-- An exponent, if there is one: its mark, a sign or none, and at least one
digit. -/
def readExponent : List Char → Option (List Char × List Char)
  | [] => some ([], [])
  | c :: rest =>
      if c = 'e' ∨ c = 'E' then
        match (readSign rest).2.takeWhile Decimal.isDigit with
        | [] => none
        | run =>
            some (c :: ((readSign rest).1 ++ run), (readSign rest).2.dropWhile Decimal.isDigit)
      else some ([], c :: rest)

/-- The number with a given sign, digits, fraction and exponent. -/
def ofParts (negative : Bool) (whole fraction exponent : List Char) : Json :=
  let sign := if negative then ['-'] else []
  if fraction = [] ∧ exponent = [] ∧ ¬(negative ∧ whole = ['0']) then
    .integer (if negative then -(Decimal.value whole : Int) else Decimal.value whole)
  else
    .decimal (sign ++ (whole ++ (fraction ++ exponent)))

/-- A number without its sign. -/
def readUnsigned (negative : Bool) (source : List Char) : Option (Json × List Char) :=
  match readWhole source with
  | none => none
  | some (whole, rest) =>
      match readFraction rest with
      | none => none
      | some (fraction, rest) =>
          match readExponent rest with
          | none => none
          | some (exponent, rest) => some (ofParts negative whole fraction exponent, rest)

/-- A number. -/
def readNumber : List Char → Option (Json × List Char)
  | '-' :: rest => readUnsigned true rest
  | source => readUnsigned false source

theorem length_dropWhile_lt {p : Char → Bool} {source : List Char}
    (nonempty : source.takeWhile p ≠ []) : (source.dropWhile p).length < source.length := by
  have whole := congrArg List.length (List.takeWhile_append_dropWhile (p := p) (l := source))
  have positive := List.length_pos_iff.2 nonempty
  rw [List.length_append] at whole
  omega

theorem length_readWhole_lt {source run after : List Char}
    (read : readWhole source = some (run, after)) : after.length < source.length := by
  unfold readWhole at read
  split at read
  · simp at read
  · simp at read
  next nonempty _ =>
    obtain ⟨_, rfl⟩ := by simpa using read
    exact length_dropWhile_lt nonempty

theorem length_readFraction_le {source run after : List Char}
    (read : readFraction source = some (run, after)) : after.length ≤ source.length := by
  unfold readFraction at read
  split at read
  · split at read
    · simp at read
    next nonempty =>
      obtain ⟨_, rfl⟩ := by simpa using read
      exact Nat.le_succ_of_le (Nat.le_of_lt (length_dropWhile_lt nonempty))
  · obtain ⟨_, rfl⟩ := by simpa using read
    exact Nat.le_refl _

theorem length_readSign_le (source : List Char) : (readSign source).2.length ≤ source.length := by
  unfold readSign
  split <;> simp

theorem length_readExponent_le {source run after : List Char}
    (read : readExponent source = some (run, after)) : after.length ≤ source.length := by
  unfold readExponent at read
  split at read
  · obtain ⟨_, rfl⟩ := by simpa using read
    exact Nat.le_refl _
  next c rest =>
    split at read
    · split at read
      · simp at read
      next nonempty =>
        obtain ⟨_, rfl⟩ := by simpa using read
        have shorter := length_dropWhile_lt nonempty
        have sign := length_readSign_le rest
        simp only [List.length_cons]
        omega
    · obtain ⟨_, rfl⟩ := by simpa using read
      exact Nat.le_refl _

theorem length_readUnsigned_lt {negative : Bool} {source : List Char} {value : Json}
    {after : List Char} (read : readUnsigned negative source = some (value, after)) :
    after.length < source.length := by
  unfold readUnsigned at read
  split at read
  · simp at read
  next whole rest first =>
    split at read
    · simp at read
    next fraction rest second =>
      split at read
      · simp at read
      next exponent rest third =>
        obtain ⟨_, rfl⟩ := by simpa using read
        have := length_readWhole_lt first
        have := length_readFraction_le second
        have := length_readExponent_le third
        omega

theorem length_readNumber_lt {source : List Char} {value : Json} {after : List Char}
    (read : readNumber source = some (value, after)) : after.length < source.length := by
  unfold readNumber at read
  split at read
  · exact Nat.lt_succ_of_lt (length_readUnsigned_lt read)
  · exact length_readUnsigned_lt read

/-! ## Values -/

/-- What is left after something was read from `source`. -/
abbrev Shorter (source : List Char) : Type :=
  { rest : List Char // rest.length < source.length }

mutual
/-- A value, after white space. -/
def readValue (source : List Char) : Option (Json × Shorter source) :=
  have spaces := length_skipSpace_le source
  match start : skipSpace source with
  | 'n' :: 'u' :: 'l' :: 'l' :: rest => some (.null, ⟨rest, by grind⟩)
  | 't' :: 'r' :: 'u' :: 'e' :: rest => some (.bool true, ⟨rest, by grind⟩)
  | 'f' :: 'a' :: 'l' :: 's' :: 'e' :: rest => some (.bool false, ⟨rest, by grind⟩)
  | '"' :: rest =>
      match found : readString rest with
      | some (content, after) =>
          have := length_readString_lt found
          some (.string content, ⟨after, by grind⟩)
      | none => none
  | '[' :: rest =>
      have inside := length_skipSpace_le rest
      match next : skipSpace rest with
      | ']' :: after => some (.array [], ⟨after, by grind⟩)
      | _ =>
          match readItems rest with
          | some (items, ⟨after, shorter⟩) => some (.array items, ⟨after, by grind⟩)
          | none => none
  | '\x7b' :: rest =>
      have inside := length_skipSpace_le rest
      match next : skipSpace rest with
      | '\x7d' :: after => some (.object [], ⟨after, by grind⟩)
      | _ =>
          match readMembers rest with
          | some (members, ⟨after, shorter⟩) => some (.object members, ⟨after, by grind⟩)
          | none => none
  | rest =>
      match found : readNumber rest with
      | some (value, after) =>
          have := length_readNumber_lt found
          some (value, ⟨after, by grind⟩)
      | none => none
termination_by 2 * source.length
decreasing_by all_goals grind

/-- The items of an array that has some, and its closing bracket. -/
def readItems (source : List Char) : Option (List Json × Shorter source) :=
  match readValue source with
  | none => none
  | some (item, ⟨rest, shorter⟩) =>
      have spaces := length_skipSpace_le rest
      match next : skipSpace rest with
      | ']' :: after => some ([item], ⟨after, by grind⟩)
      | ',' :: rest =>
          match readItems rest with
          | some (items, ⟨after, last⟩) => some (item :: items, ⟨after, by grind⟩)
          | none => none
      | _ => none
termination_by 2 * source.length + 1
decreasing_by all_goals grind

/-- The members of an object that has some, and its closing brace. -/
def readMembers (source : List Char) : Option (List (Option String × Json) × Shorter source) :=
  have spaces := length_skipSpace_le source
  match start : skipSpace source with
  | '"' :: rest =>
      match found : readString rest with
      | none => none
      | some (key, rest) =>
          have string := length_readString_lt found
          have between := length_skipSpace_le rest
          match colon : skipSpace rest with
          | ':' :: rest =>
              match readValue rest with
              | none => none
              | some (value, ⟨rest, shorter⟩) =>
                  have behind := length_skipSpace_le rest
                  match next : skipSpace rest with
                  | '\x7d' :: after => some ([(key, value)], ⟨after, by grind⟩)
                  | ',' :: rest =>
                      match readMembers rest with
                      | some (members, ⟨after, last⟩) =>
                          some ((key, value) :: members, ⟨after, by grind⟩)
                      | none => none
                  | _ => none
          | _ => none
  | _ => none
termination_by 2 * source.length + 1
decreasing_by all_goals grind
end

/-- The value that a whole text spells. -/
def parse (source : String) : Option Json :=
  match readValue source.toList with
  | some (value, ⟨rest, _⟩) => if skipSpace rest = [] then some value else none
  | none => none

end ProcLang.Json
