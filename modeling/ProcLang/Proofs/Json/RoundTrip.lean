import Mathlib
import ProcLang.Json.Pretty
import ProcLang.Json.Reader

/-!
# Reading JSON text back

A value that is laid out and read is the value it was, also with white space
behind it (`Written.parse_pretty`). This holds of a value whose strings all denote a text and
whose numbers are all integers (`Written`): a string that denotes no text is
written as an empty one, and the spelling of another number is taken as it is.

The reader goes on from what it left, so the round trip is proved for a text
with a continuation. Only a number needs to know its continuation: it ends where
the text does not go on with a digit, a point or the mark of an exponent
(`EndsNumber`). In a layout a value is followed by a comma, by a new line or by
nothing.

The rules of the reader return the rest of the text with a bound on its length.
`bare` forgets the bound, and each rule is first restated without it.
-/

set_option autoImplicit false

namespace ProcLang

/-- A number of more than one digit does not start with a zero. -/
theorem Decimal.digits_ne_zero_cons (n : Nat) (next : Char) (rest : List Char) :
    digits n ≠ '0' :: next :: rest := by
  intro written
  fun_induction digits n generalizing next rest with
  | case1 n _ => simp at written
  | case2 n large ih =>
      rcases front : digits (n / 10) with _ | ⟨first, _ | ⟨second, more⟩⟩
      · exact digits_ne_nil _ front
      · rw [front] at written
        obtain ⟨rfl, -⟩ := List.cons.inj written
        have zero : value (digits (n / 10)) = 0 := by rw [front]; rfl
        rw [value_digits] at zero
        omega
      · rw [front] at written
        obtain ⟨rfl, -⟩ := List.cons.inj written
        exact ih second more front

theorem Decimal.exists_digits_cons (n : Nat) :
    ∃ first run, digits n = first :: run ∧ isDigit first = true := by
  rcases written : digits n with _ | ⟨first, run⟩
  · exact absurd written (digits_ne_nil n)
  · have member : first ∈ digits n := by simp [written]
    exact ⟨first, run, rfl, isDigit_of_mem_digits member⟩

theorem Decimal.exists_signedDigits_cons (value : Int) :
    ∃ first run, signedDigits value = first :: run ∧ (first = '-' ∨ isDigit first = true) := by
  cases value with
  | ofNat n =>
      obtain ⟨first, run, written, digit⟩ := exists_digits_cons n
      exact ⟨first, run, written, .inr digit⟩
  | negSucc n => exact ⟨'-', _, rfl, .inl rfl⟩

namespace Json

/-! ## Values that are read back -/

/-- All strings denote a text, and all numbers are integers. -/
inductive Written : Json → Prop
  | null : Written .null
  | bool (value : Bool) : Written (.bool value)
  | integer (value : Int) : Written (.integer value)
  | text (content : String) : Written (.text content)
  | array {items : List Json} (each : ∀ item ∈ items, Written item) : Written (.array items)
  | object {members : List (Option String × Json)} (keys : ∀ member ∈ members, member.1.isSome)
      (values : ∀ member ∈ members, Written member.2) : Written (.object members)

theorem Written.record {members : List (String × Json)}
    (values : ∀ member ∈ members, Written member.2) : Written (.record members) := by
  refine .object ?_ ?_
  · intro member listed
    obtain ⟨given, -, rfl⟩ := List.mem_map.mp listed
    rfl
  · intro member listed
    obtain ⟨given, among, rfl⟩ := List.mem_map.mp listed
    exact values given among

theorem Written.tagged (tag : String) {payload : Json} (written : Written payload) :
    Written (.tagged tag payload) := by
  apply Written.record
  intro member listed
  obtain rfl := List.mem_singleton.mp listed
  exact written

/-! ## White space -/

theorem skipSpace_cons {c : Char} (visible : isSpace c = false) (rest : List Char) :
    skipSpace (c :: rest) = c :: rest := by
  simp [skipSpace, visible]

theorem skipSpace_space {c : Char} (space : isSpace c = true) (rest : List Char) :
    skipSpace (c :: rest) = skipSpace rest := by
  simp [skipSpace, space]

/-- A new line and its indentation are skipped. -/
theorem skipSpace_newline (indent : Nat) (rest : List Char) :
    skipSpace (newline indent ++ rest) = skipSpace rest := by
  have blank : ∀ count : Nat,
      skipSpace (List.replicate count ' ' ++ rest) = skipSpace rest := by
    intro count
    induction count with
    | zero => rfl
    | succ count ih =>
        rw [List.replicate_succ, List.cons_append, skipSpace_space (by decide), ih]
  rw [newline, List.cons_append, skipSpace_space (by decide), blank]

/-! ## Strings -/

/-- A part of a string that stands for a character, whatever parts follow it. -/
def Piece.Denotes (piece : Piece) (c : Char) : Prop :=
  ∀ pieces, joinPieces (piece :: pieces) = (joinPieces pieces).map (c :: ·)

theorem Piece.denotes_char (c : Char) : (Piece.char c).Denotes c := by
  intro pieces
  rw [joinPieces]

/-- A unit below the surrogates does not wait for another one. -/
theorem Piece.denotes_unit {c : Char} (small : c.toNat < 0x20) :
    (Piece.unit c.toNat).Denotes c := by
  have leading : isLeading c.toNat = false := by simp [isLeading]; omega
  have trailing : isTrailing c.toNat = false := by simp [isTrailing]; omega
  intro pieces
  rcases pieces with _ | ⟨next | next, rest⟩ <;>
    simp [joinPieces, leading, trailing, Char.ofNat_toNat]

theorem hexValue?_hexDigit (n : Nat) : hexValue? (hexDigit n) = some (n % 16) := by
  have all : ∀ place < 16, hexValue? (hexDigit place) = some place := by decide
  have same : hexDigit n = hexDigit (n % 16) := by simp [hexDigit]
  rw [same, all _ (Nat.mod_lt n (by decide))]

/-- The four digits of a control character have its number as their value. -/
theorem unitValue?_control {n : Nat} (small : n < 0x20) :
    unitValue? '0' '0' (hexDigit (n / 16)) (hexDigit n) = some n := by
  have zero : hexValue? '0' = some 0 := by decide
  simp only [unitValue?, zero, hexValue?_hexDigit]
  congr 1
  omega

/-- An escape of one letter is read as the character it stands for. -/
theorem readPieces_letter {letter c : Char} (escaped : ofEscape? letter = some c)
    (rest : List Char) :
    readPieces ('\\' :: letter :: rest) =
      (readPieces rest).map fun read => (.char c :: read.1, read.2) := by
  have other : letter ≠ 'u' := by
    rintro rfl
    simp [ofEscape?] at escaped
  rw [readPieces]
  · rw [escaped]
    cases readPieces rest <;> rfl
  · intro _ _ _ _ _ same
    exact absurd same other

/-- An escape by number is read as a unit. -/
theorem readPieces_control {n : Nat} (small : n < 0x20) (rest : List Char) :
    readPieces ('\\' :: 'u' :: '0' :: '0' :: hexDigit (n / 16) :: hexDigit n :: rest) =
      (readPieces rest).map fun read => (.unit n :: read.1, read.2) := by
  rw [readPieces, unitValue?_control small]
  cases readPieces rest <;> rfl

/-- A character that needs no escape is read as itself. -/
theorem readPieces_plain {c : Char} (printable : ¬c.toNat < 0x20) (quote : c ≠ '"')
    (backslash : c ≠ '\\') (rest : List Char) :
    readPieces (c :: rest) = (readPieces rest).map fun read => (.char c :: read.1, read.2) := by
  rw [readPieces.eq_def]
  split
  · rename_i same
    simp at same
  · rename_i same
    exact absurd (List.cons.inj same).1 quote
  · rename_i same
    exact absurd (List.cons.inj same).1 backslash
  · rename_i same
    exact absurd (List.cons.inj same).1 backslash
  · rename_i same
    obtain ⟨rfl, rfl⟩ := List.cons.inj same
    rw [if_neg printable]
    cases readPieces rest <;> rfl

/-- The three ways a character is written: by a letter, by its number, as itself. -/
theorem escape_cases (c : Char) :
    (∃ letter, ofEscape? letter = some c ∧ escape c = ['\\', letter]) ∨
    (c.toNat < 0x20 ∧
      escape c = ['\\', 'u', '0', '0', hexDigit (c.toNat / 16), hexDigit c.toNat]) ∨
    (¬c.toNat < 0x20 ∧ c ≠ '"' ∧ c ≠ '\\' ∧ escape c = [c]) := by
  have known : ∀ {d : Char}, c.toNat = d.toNat → c = d := Char.toNat_inj.mp
  unfold escape
  split_ifs with quote backslash line carriage tab back feed control
  · exact .inl ⟨'"', by rw [quote]; rfl, rfl⟩
  · exact .inl ⟨'\\', by rw [backslash]; rfl, rfl⟩
  · exact .inl ⟨'n', by rw [line]; rfl, rfl⟩
  · exact .inl ⟨'r', by rw [carriage]; rfl, rfl⟩
  · exact .inl ⟨'t', by rw [tab]; rfl, rfl⟩
  · exact .inl ⟨'b', by rw [@known '\x08' back]; rfl, rfl⟩
  · exact .inl ⟨'f', by rw [@known '\x0c' feed]; rfl, rfl⟩
  · exact .inr (.inl ⟨control, rfl⟩)
  · exact .inr (.inr ⟨control, quote, backslash, rfl⟩)

/-- A written character is read as one part of the string, which stands for it. -/
theorem readPieces_escape (c : Char) : ∃ piece, Piece.Denotes piece c ∧ ∀ rest,
    readPieces (escape c ++ rest) =
      (readPieces rest).map fun read => (piece :: read.1, read.2) := by
  rcases escape_cases c with ⟨letter, escaped, written⟩ | ⟨small, written⟩ |
    ⟨printable, quote, backslash, written⟩
  · refine ⟨.char c, Piece.denotes_char c, fun rest => ?_⟩
    rw [written]
    exact readPieces_letter escaped rest
  · refine ⟨.unit c.toNat, Piece.denotes_unit small, fun rest => ?_⟩
    rw [written]
    exact readPieces_control small rest
  · refine ⟨.char c, Piece.denotes_char c, fun rest => ?_⟩
    rw [written]
    exact readPieces_plain printable quote backslash rest

/-- The parts of a written text denote it. -/
theorem readPieces_quote (content rest : List Char) : ∃ pieces,
    joinPieces pieces = some content ∧
      readPieces (content.flatMap escape ++ '"' :: rest) = some (pieces, rest) := by
  induction content with
  | nil => exact ⟨[], rfl, by simp [readPieces]⟩
  | cons c content ih =>
      obtain ⟨piece, denotes, written⟩ := readPieces_escape c
      obtain ⟨pieces, joined, read⟩ := ih
      refine ⟨piece :: pieces, ?_, ?_⟩
      · rw [denotes, joined]
        rfl
      · rw [List.flatMap_cons, List.append_assoc, written, read]
        rfl

/-- A text in quotes is read back, and nothing behind its closing quote is taken. -/
theorem readString_quote (content : String) (rest : List Char) :
    readString (content.toList.flatMap escape ++ '"' :: rest) = some (some content, rest) := by
  obtain ⟨pieces, joined, read⟩ := readPieces_quote content.toList rest
  simp [readString, read, joined]

/-! ## Numbers -/

/-- The text does not go on with a part of a number. -/
def EndsNumber (rest : List Char) : Prop :=
  ∀ c ∈ rest.head?, Decimal.isDigit c = false ∧ c ≠ '.' ∧ c ≠ 'e' ∧ c ≠ 'E'

theorem readWhole_digits (n : Nat) {rest : List Char} (ends : EndsNumber rest) :
    readWhole (Decimal.digits n ++ rest) = some (Decimal.digits n, rest) := by
  have all : ∀ c ∈ Decimal.digits n, Decimal.isDigit c = true :=
    fun _ => Decimal.isDigit_of_mem_digits
  have stop : rest.takeWhile Decimal.isDigit = [] ∧ rest.dropWhile Decimal.isDigit = rest := by
    rcases rest with _ | ⟨c, rest⟩
    · exact ⟨rfl, rfl⟩
    · have other := (ends c rfl).1
      simp [other]
  unfold readWhole
  rw [List.takeWhile_append_of_pos all, List.dropWhile_append_of_pos all, stop.1, stop.2,
    List.append_nil]
  split
  next empty => exact absurd empty (Decimal.digits_ne_nil n)
  next zero => exact absurd zero (Decimal.digits_ne_zero_cons n _ _)
  next => rfl

theorem readFraction_of_ends {rest : List Char} (ends : EndsNumber rest) :
    readFraction rest = some ([], rest) := by
  unfold readFraction
  split
  next => exact absurd rfl (ends '.' rfl).2.1
  next => rfl

theorem readExponent_of_ends {rest : List Char} (ends : EndsNumber rest) :
    readExponent rest = some ([], rest) := by
  rcases rest with _ | ⟨c, rest⟩
  · rfl
  · obtain ⟨-, -, lower, upper⟩ := ends c rfl
    simp [readExponent, lower, upper]

theorem readUnsigned_digits (negative : Bool) (n : Nat) {rest : List Char}
    (ends : EndsNumber rest) :
    readUnsigned negative (Decimal.digits n ++ rest) =
      some (ofParts negative (Decimal.digits n) [] [], rest) := by
  simp [readUnsigned, readWhole_digits n ends, readFraction_of_ends ends,
    readExponent_of_ends ends]

/-- A written integer is read back, where its digits end. -/
theorem readNumber_signedDigits (value : Int) {rest : List Char} (ends : EndsNumber rest) :
    readNumber (Decimal.signedDigits value ++ rest) = some (.integer value, rest) := by
  cases value with
  | ofNat n =>
      have plain : readNumber (Decimal.digits n ++ rest) =
          readUnsigned false (Decimal.digits n ++ rest) := by
        obtain ⟨first, run, written, digit⟩ := Decimal.exists_digits_cons n
        rw [written, List.cons_append, readNumber]
        intro _ same
        obtain ⟨rfl, -⟩ := List.cons.inj same
        exact absurd digit (by decide)
      rw [Decimal.signedDigits, plain, readUnsigned_digits false n ends]
      simp [ofParts, Decimal.value_digits]
  | negSucc n =>
      have nonzero : Decimal.digits (n + 1) ≠ ['0'] := by
        intro zero
        have spelled := Decimal.value_digits (n + 1)
        rw [zero] at spelled
        exact absurd spelled (by simp [Decimal.value])
      rw [Decimal.signedDigits, List.cons_append, readNumber,
        readUnsigned_digits true (n + 1) ends]
      simp [ofParts, nonzero, Decimal.value_digits, Int.negSucc_eq]

/-! ## Values -/

/-- What was read and what is left, without the bound on its length. -/
def bare {α : Type} {source : List Char} (result : Option (α × Shorter source)) :
    Option (α × List Char) :=
  result.map fun read => (read.1, read.2.val)

/-- The rule for values, without the bounds that make it end. -/
theorem bare_readValue (source : List Char) :
    bare (readValue source) =
      match skipSpace source with
      | 'n' :: 'u' :: 'l' :: 'l' :: rest => some (.null, rest)
      | 't' :: 'r' :: 'u' :: 'e' :: rest => some (.bool true, rest)
      | 'f' :: 'a' :: 'l' :: 's' :: 'e' :: rest => some (.bool false, rest)
      | '"' :: rest => (readString rest).map fun read => (.string read.1, read.2)
      | '[' :: rest =>
          match skipSpace rest with
          | ']' :: after => some (.array [], after)
          | _ => (bare (readItems rest)).map fun read => (.array read.1, read.2)
      | '\x7b' :: rest =>
          match skipSpace rest with
          | '\x7d' :: after => some (.object [], after)
          | _ => (bare (readMembers rest)).map fun read => (.object read.1, read.2)
      | rest => readNumber rest := by
  rw [readValue.eq_def]
  split
  next start => simp [start, bare]
  next start => simp [start, bare]
  next start => simp [start, bare]
  next start =>
    simp only [start]
    split <;> simp_all [bare]
  next start =>
    simp only [start]
    split
    next inner => simp [bare, inner]
    next => split <;> simp_all [bare]
  next start =>
    simp only [start]
    split
    next inner => simp [bare, inner]
    next => split <;> simp_all [bare]
  next => split <;> simp_all [bare]

theorem bare_readItems (source : List Char) :
    bare (readItems source) = (bare (readValue source)).bind fun read =>
      match skipSpace read.2 with
      | ']' :: after => some ([read.1], after)
      | ',' :: rest => (bare (readItems rest)).map fun more => (read.1 :: more.1, more.2)
      | _ => none := by
  rw [readItems.eq_def]
  rcases readValue source with _ | ⟨item, rest, shorter⟩
  · rfl
  · simp only [bare, Option.map_some, Option.bind_some]
    split
    next inner => simp [inner]
    next inner =>
      simp only [inner]
      split <;> simp_all
    next => simp_all

theorem bare_readMembers (source : List Char) :
    bare (readMembers source) =
      match skipSpace source with
      | '"' :: rest => (readString rest).bind fun key =>
          match skipSpace key.2 with
          | ':' :: rest => (bare (readValue rest)).bind fun read =>
              match skipSpace read.2 with
              | '\x7d' :: after => some ([(key.1, read.1)], after)
              | ',' :: rest =>
                  (bare (readMembers rest)).map fun more => ((key.1, read.1) :: more.1, more.2)
              | _ => none
          | _ => none
      | _ => none := by
  rw [readMembers.eq_def]
  split
  next start =>
    simp only [start]
    split
    next missing => simp [bare, missing]
    next key rest string =>
      simp only [string, Option.bind_some]
      split
      next colon =>
        simp only [colon]
        split
        next missing => simp [bare, missing]
        next value rest shorter read =>
          simp only [read, bare, Option.map_some, Option.bind_some]
          split
          next closed => simp [closed]
          next more =>
            simp only [more]
            split <;> simp_all
          next => simp_all
      next => simp_all [bare]
  next => simp_all [bare]

/-! ## The round trip -/

/-- The value is read back from its layout, with whatever ends a number behind it. -/
def ReadsBack (value : Json) : Prop :=
  ∀ indent rest, EndsNumber rest →
    bare (readValue (layout indent value ++ rest)) = some (value, rest)

theorem endsNumber_cons {c : Char}
    (other : Decimal.isDigit c = false ∧ c ≠ '.' ∧ c ≠ 'e' ∧ c ≠ 'E') (rest : List Char) :
    EndsNumber (c :: rest) := by
  intro first head
  obtain rfl : c = first := by simpa using head
  exact other

theorem endsNumber_newline (indent : Nat) (rest : List Char) :
    EndsNumber (newline indent ++ rest) :=
  endsNumber_cons (by decide) _

theorem isSpace_of_numeric {c : Char} (numeric : c = '-' ∨ Decimal.isDigit c = true) :
    isSpace c = false := by
  apply Bool.eq_false_of_not_eq_true
  intro space
  simp only [isSpace, Bool.or_eq_true, beq_iff_eq] at space
  rcases space with ((rfl | rfl) | rfl) | rfl <;> exact absurd numeric (by decide)

/-- The first character of a layout is visible and closes nothing. -/
theorem Written.layout_cons {value : Json} (written : Written value) (indent : Nat) :
    ∃ first run, layout indent value = first :: run ∧ isSpace first = false ∧ first ≠ ']' := by
  cases written with
  | null => exact ⟨'n', _, by rw [layout], by decide, by decide⟩
  | bool value => cases value <;> exact ⟨_, _, by rw [layout], by decide, by decide⟩
  | integer value =>
      obtain ⟨first, run, spelled, numeric⟩ := Decimal.exists_signedDigits_cons value
      exact ⟨first, run, by rw [layout, spelled], isSpace_of_numeric numeric, by
        rintro rfl
        exact absurd numeric (by decide)⟩
  | text content => exact ⟨'"', _, by rw [Json.text, layout]; rfl, by decide, by decide⟩
  | @array items _ => cases items <;> exact ⟨'[', _, by rw [layout], by decide, by decide⟩
  | @object members _ _ =>
      cases members <;> exact ⟨'\x7b', _, by rw [layout], by decide, by decide⟩

theorem bare_readValue_newline (indent : Nat) (source : List Char) :
    bare (readValue (newline indent ++ source)) = bare (readValue source) := by
  rw [bare_readValue, skipSpace_newline, ← bare_readValue]

theorem bare_readValue_space (source : List Char) :
    bare (readValue (' ' :: source)) = bare (readValue source) := by
  rw [bare_readValue, skipSpace_space (by decide), ← bare_readValue]

/-- The items of an array are read back up to its closing bracket. -/
theorem bare_readItems_layout {first : Json} {items : List Json} (leads : ReadsBack first)
    (each : ∀ item ∈ items, ReadsBack item) (indent outer : Nat) (rest : List Char) :
    bare (readItems (newline indent ++ (layout indent first ++ (layoutItems indent items ++
      (newline outer ++ ']' :: rest))))) = some (first :: items, rest) := by
  induction items generalizing first with
  | nil =>
      rw [bare_readItems, bare_readValue_newline, layoutItems, List.nil_append,
        leads indent _ (endsNumber_newline _ _), Option.bind_some, skipSpace_newline,
        skipSpace_cons (by decide)]
      rfl
  | cons next items ih =>
      have followed := ih (each next List.mem_cons_self)
        fun item listed => each item (.tail _ listed)
      rw [bare_readItems, bare_readValue_newline, layoutItems, List.cons_append,
        leads indent _ (endsNumber_cons (by decide) _), Option.bind_some,
        skipSpace_cons (by decide)]
      simp only [List.append_assoc, followed, Option.map_some]

/-- The text of a member, up to the value. -/
theorem bare_readMembers_key (indent : Nat) (key : String) (source : List Char) :
    bare (readMembers (newline indent ++ (quoteText (some key) ++ (':' :: ' ' :: source)))) =
      (bare (readValue source)).bind fun read =>
        match skipSpace read.2 with
        | '\x7d' :: after => some ([(some key, read.1)], after)
        | ',' :: rest =>
            (bare (readMembers rest)).map fun more => ((some key, read.1) :: more.1, more.2)
        | _ => none := by
  have quoted : quoteText (some key) ++ (':' :: ' ' :: source) =
      '"' :: (key.toList.flatMap escape ++ '"' :: ':' :: ' ' :: source) := by
    simp [quoteText, quote]
  rw [bare_readMembers, skipSpace_newline, quoted, skipSpace_cons (by decide)]
  simp only [readString_quote, Option.bind_some]
  rw [skipSpace_cons (by decide)]
  simp only [bare_readValue_space]

/-- The members of an object are read back up to its closing brace. -/
theorem bare_readMembers_layout {key : String} {value : Json}
    {members : List (Option String × Json)} (leads : ReadsBack value)
    (keys : ∀ member ∈ members, member.1.isSome)
    (values : ∀ member ∈ members, ReadsBack member.2) (indent outer : Nat) (rest : List Char) :
    bare (readMembers (newline indent ++ (quoteText (some key) ++ (':' :: ' ' ::
      (layout indent value ++ (layoutMembers indent members ++
        (newline outer ++ '\x7d' :: rest))))))) = some ((some key, value) :: members, rest) := by
  induction members generalizing key value with
  | nil =>
      rw [bare_readMembers_key, layoutMembers, List.nil_append,
        leads indent _ (endsNumber_newline _ _), Option.bind_some, skipSpace_newline,
        skipSpace_cons (by decide)]
      rfl
  | cons member members ih =>
      obtain ⟨next, following⟩ := member
      obtain ⟨next, rfl⟩ := Option.isSome_iff_exists.mp (keys _ List.mem_cons_self)
      have followed := @ih next following (values _ List.mem_cons_self)
        (fun member listed => keys member (.tail _ listed))
        fun member listed => values member (.tail _ listed)
      rw [bare_readMembers_key, layoutMembers, List.cons_append,
        leads indent _ (endsNumber_cons (by decide) _), Option.bind_some,
        skipSpace_cons (by decide)]
      simp only [List.append_assoc, List.cons_append, followed, Option.map_some]

/-- A written value is read back from its layout. -/
theorem Written.readsBack {value : Json} (written : Written value) : ReadsBack value := by
  induction written with
  | null =>
      intro indent rest _
      rw [bare_readValue, layout, List.cons_append, skipSpace_cons (by decide)]
      rfl
  | bool value =>
      intro indent rest _
      cases value <;>
        (rw [bare_readValue, layout, List.cons_append, skipSpace_cons (by decide)]
         rfl)
  | integer value =>
      intro indent rest ends
      have read := readNumber_signedDigits value ends
      obtain ⟨first, run, spelled, numeric⟩ := Decimal.exists_signedDigits_cons value
      rw [spelled, List.cons_append] at read
      rw [layout, spelled, List.cons_append, bare_readValue,
        skipSpace_cons (isSpace_of_numeric numeric)]
      -- A digit or a minus sign starts nothing but a number.
      split
      all_goals first
        | exact read
        | rename_i same
          obtain ⟨rfl, -⟩ := List.cons.inj same
          exact absurd numeric (by decide)
  | text content =>
      intro indent rest _
      have quoted : layout indent (.text content) ++ rest =
          '"' :: (content.toList.flatMap escape ++ '"' :: rest) := by
        simp [Json.text, layout, quoteText, quote]
      rw [quoted, bare_readValue, skipSpace_cons (by decide)]
      simp only [readString_quote, Option.map_some, Json.text]
  | @array items each ih =>
      intro indent rest _
      cases items with
      | nil =>
          rw [bare_readValue, layout, List.cons_append, skipSpace_cons (by decide)]
          rfl
      | cons first items =>
          have read := bare_readItems_layout (ih first List.mem_cons_self)
            (fun item listed => ih item (.tail _ listed)) (indent + 1) indent rest
          obtain ⟨start, run, spelled, visible, opens⟩ :=
            (each first List.mem_cons_self).layout_cons (indent + 1)
          rw [bare_readValue, layout, List.cons_append, skipSpace_cons (by decide)]
          simp only [List.append_assoc, List.cons_append, List.nil_append, read, Option.map_some,
            skipSpace_newline]
          rw [spelled, List.cons_append, skipSpace_cons visible]
          split
          · rename_i same
            exact absurd (List.cons.inj same).1 opens
          · rfl
  | @object members keys values ih =>
      intro indent rest _
      rcases members with _ | ⟨⟨key, value⟩, members⟩
      · rw [bare_readValue, layout, List.cons_append, skipSpace_cons (by decide)]
        rfl
      · obtain ⟨key, rfl⟩ := Option.isSome_iff_exists.mp (keys _ List.mem_cons_self)
        have read := @bare_readMembers_layout key value members (ih _ List.mem_cons_self)
          (fun member listed => keys member (.tail _ listed))
          (fun member listed => ih member (.tail _ listed)) (indent + 1) indent rest
        rw [bare_readValue, layout, List.cons_append, skipSpace_cons (by decide)]
        simp only [List.append_assoc, List.cons_append, List.nil_append, read, Option.map_some,
          skipSpace_newline]
        rfl

theorem parse_eq (source : String) :
    parse source = (bare (readValue source.toList)).bind fun read =>
      if skipSpace read.2 = [] then some read.1 else none := by
  unfold parse
  rcases readValue source.toList with _ | ⟨value, rest, shorter⟩ <;> rfl

/-- White space ends a number. -/
theorem endsNumber_of_skipSpace {rest : List Char} (blank : skipSpace rest = []) :
    EndsNumber rest := by
  intro c head
  have space : isSpace c = true :=
    List.dropWhile_eq_nil_iff.mp blank c (List.mem_of_mem_head? head)
  simp only [isSpace, Bool.or_eq_true, beq_iff_eq] at space
  rcases space with ((rfl | rfl) | rfl) | rfl <;> decide

/-- The text of a written value spells it, also with white space behind. -/
theorem Written.parse_pretty {value : Json} (written : Written value) {blank : String}
    (spaces : skipSpace blank.toList = []) : parse (value.pretty ++ blank) = some value := by
  have read := written.readsBack 0 blank.toList (endsNumber_of_skipSpace spaces)
  rw [parse_eq, pretty, String.toList_append, String.toList_ofList, read, Option.bind_some,
    if_pos spaces]

end Json

end ProcLang
