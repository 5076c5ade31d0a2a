import Mathlib
import ProcLang.Token.Scanner

/-!
# Written tokens are scanned

A token that is written out is scanned as itself, if white space or nothing follows
it (`Lexeme.ofText_text`). So a text in which written tokens are kept apart by
trivia has these tokens and no others (`tokensOf_spaced`).

Only some kinds can be written: names that are no keywords, integers that are not
negative, keywords and symbols (`TokenKind.isWritable`).
-/

set_option autoImplicit false

namespace ProcLang

/-! ## Characters -/

section Characters

variable {c : Char}

theorem isDigit_iff : Decimal.isDigit c ↔ 48 ≤ c.toNat ∧ c.toNat ≤ 57 := by
  simp only [Decimal.isDigit, Bool.and_eq_true, decide_eq_true_eq, Char.le_def,
    UInt32.le_iff_toNat_le]
  exact Iff.rfl

theorem isNameStart_iff :
    isNameStart c ↔ (97 ≤ c.toNat ∧ c.toNat ≤ 122) ∨ (65 ≤ c.toNat ∧ c.toNat ≤ 90) ∨
      c.toNat = 95 := by
  have underscore : c = '_' ↔ c.toNat = 95 := by
    rw [← Char.toNat_inj]
    rfl
  simp only [isNameStart, Bool.or_eq_true, Bool.and_eq_true, decide_eq_true_eq, beq_iff_eq,
    Char.le_def, UInt32.le_iff_toNat_le, underscore, or_assoc]
  exact Iff.rfl

/-- White space lies below and above the visible characters of tokens. -/
theorem toNat_of_isWhiteSpace (space : WhiteSpace.isWhiteSpace c) :
    c.toNat ≤ 32 ∨ 133 ≤ c.toNat := by
  simp only [WhiteSpace.isWhiteSpace, WhiteSpace.ranges, List.any_cons, List.any_nil,
    Bool.or_eq_true, Bool.and_eq_true, decide_eq_true_eq, Bool.or_false] at space
  omega

theorem isNameChar_of_isWhiteSpace (space : WhiteSpace.isWhiteSpace c) : isNameChar c = false := by
  have far := toNat_of_isWhiteSpace space
  rw [Bool.eq_false_iff, isNameChar, Ne, Bool.or_eq_true, isNameStart_iff, isDigit_iff]
  omega

theorem isDigit_of_isWhiteSpace (space : WhiteSpace.isWhiteSpace c) :
    Decimal.isDigit c = false := by
  have far := toNat_of_isWhiteSpace space
  rw [Bool.eq_false_iff, Ne, isDigit_iff]
  omega

theorem isNameStart_of_isDigit (digit : Decimal.isDigit c) : isNameStart c = false := by
  rw [isDigit_iff] at digit
  rw [Bool.eq_false_iff, Ne, isNameStart_iff]
  omega

end Characters

/-! ## Lexemes -/

/-- A word that is scanned as an identifier. -/
def isName (word : String) : Bool :=
  match word.toList with
  | [] => false
  | c :: rest => isNameStart c && rest.all isNameChar && (Keyword.ofText? word).isNone

/-- A kind of token that is scanned as itself. -/
def TokenKind.isWritable : TokenKind → Bool
  | .integer value => 0 ≤ value
  | .identifier name => isName name
  | .keyword _ | .symbol _ => true
  | .endOfFile => false

/-- Nothing follows, or white space does. -/
def Parted (rest : List Char) : Prop :=
  ∀ c ∈ rest.head?, WhiteSpace.isWhiteSpace c

section Lexemes

variable {rest : List Char}

/-- A run of characters of a class ends where something else stands. -/
theorem takeWhile_run {α : Type} {accept : α → Bool} {run rest : List α}
    (all : ∀ c ∈ run, accept c) (stops : ∀ c ∈ rest.head?, accept c = false) :
    (run ++ rest).takeWhile accept = run ∧ (run ++ rest).dropWhile accept = rest := by
  have stop : rest.takeWhile accept = [] ∧ rest.dropWhile accept = rest := by
    cases rest with
    | nil => exact ⟨rfl, rfl⟩
    | cons c rest =>
        have rejected := stops c rfl
        simp [rejected]
  rw [List.takeWhile_append_of_pos all, List.dropWhile_append_of_pos all, stop.1, stop.2]
  simp

/-- A visible character is no trivia, if it is not the first of two slashes. -/
theorem splitTrivia_of_visible {c : Char} (low : 32 < c.toNat) (high : c.toNat < 133)
    (single : c = '/' → rest.head? ≠ some '/') :
    splitTrivia false (c :: rest) = ([], c :: rest) := by
  have visible : ¬ WhiteSpace.isWhiteSpace c := by
    intro space
    have far := toNat_of_isWhiteSpace space
    omega
  rw [splitTrivia]
  · rw [if_neg visible]
  · rintro later rfl rfl
    exact single rfl rfl

/-- A word is scanned whole. -/
theorem Lexeme.ofText_word {word : String} {c : Char} {run : List Char}
    (spelled : word.toList = c :: run) (start : isNameStart c)
    (all : ∀ c ∈ run, isNameChar c) (stops : ∀ c ∈ rest.head?, isNameChar c = false) :
    ofText (word.toList ++ rest) = ⟨.ok (.ofWord word), word.toList, rest⟩ := by
  obtain ⟨taken, left⟩ := takeWhile_run all stops
  have same : String.ofList (c :: run) = word := by rw [← spelled, String.ofList_toList]
  rw [spelled, List.cons_append]
  simp only [ofText.eq_def, start, if_true, taken, left, same]

/-- A run of digits is scanned whole. -/
theorem Lexeme.ofText_run {run : List Char} (some : run ≠ [])
    (all : ∀ c ∈ run, Decimal.isDigit c) (stops : ∀ c ∈ rest.head?, Decimal.isDigit c = false) :
    ofText (run ++ rest) = ⟨TokenKind.ofDigits run, run, rest⟩ := by
  cases run with
  | nil => exact absurd rfl some
  | cons c run =>
      have digit := all c List.mem_cons_self
      obtain ⟨taken, left⟩ := takeWhile_run (fun c member => all c (.tail _ member)) stops
      rw [List.cons_append]
      simp only [ofText.eq_def, isNameStart_of_isDigit digit, Bool.false_eq_true, if_false, digit,
        if_true, taken, left]

/-- A number is scanned whole. -/
theorem Lexeme.ofText_digits {n : Nat} (small : n ≤ maxInteger) (parted : Parted rest) :
    ofText (Decimal.digits n ++ rest) =
      ⟨.ok (.integer (Int32.ofNat n)), Decimal.digits n, rest⟩ := by
  rw [ofText_run (Decimal.digits_ne_nil n) (fun c => Decimal.isDigit_of_mem_digits)
    fun c next => isDigit_of_isWhiteSpace (parted c next)]
  rw [TokenKind.ofDigits, Decimal.value_digits, if_pos small]

theorem exists_of_isName {name : String} (named : isName name) :
    TokenKind.ofWord name = .identifier name ∧
      ∃ c run, name.toList = c :: run ∧ isNameStart c ∧ ∀ c ∈ run, isNameChar c := by
  rw [isName] at named
  split at named
  next => cases named
  next c run spelled =>
    simp only [Bool.and_eq_true, List.all_eq_true, Option.isNone_iff_eq_none] at named
    obtain ⟨⟨start, all⟩, free⟩ := named
    exact ⟨by rw [TokenKind.ofWord, free], c, run, spelled, start, all⟩

/-- An integer that is not negative is written with digits only. -/
theorem exists_of_nonneg {value : Int32} (nonneg : 0 ≤ value) :
    ∃ n, n ≤ maxInteger ∧ Int32.ofNat n = value ∧
      (TokenKind.integer value).text.toList = Decimal.digits n := by
  have low : 0 ≤ value.toInt := Int32.le_iff_toInt_le.mp nonneg
  obtain ⟨n, spelled⟩ := Int.eq_ofNat_of_zero_le low
  have high := value.toInt_lt
  refine ⟨n, ?_, ?_, ?_⟩
  · unfold maxInteger
    omega
  · rw [← Int32.ofInt_toInt value, spelled]
    exact Int32.ofInt_eq_ofNat.symm
  · rw [TokenKind.text, spelled, Decimal.signedText, String.toList_ofList]
    rfl

/-- **A written token is scanned as itself.** -/
theorem Lexeme.ofText_text {kind : TokenKind} (writable : kind.isWritable) (parted : Parted rest) :
    ofText (kind.text.toList ++ rest) = ⟨.ok kind, kind.text.toList, rest⟩ := by
  have stops : ∀ c ∈ rest.head?, isNameChar c = false := fun c next =>
    isNameChar_of_isWhiteSpace (parted c next)
  cases kind with
  | integer value =>
      obtain ⟨n, small, same, spelled⟩ := exists_of_nonneg (of_decide_eq_true writable)
      rw [spelled, ofText_digits small parted, same]
  | identifier name =>
      obtain ⟨word, c, run, spelled, start, all⟩ := exists_of_isName writable
      rw [TokenKind.text, ofText_word spelled start all stops, word]
  | keyword word =>
      cases word
      all_goals exact ofText_word rfl rfl (List.all_eq_true.mp rfl) stops
  | symbol mark => cases mark <;> rfl
  | endOfFile => cases writable

/-- A written token does not start with trivia. -/
theorem splitTrivia_text {kind : TokenKind} (writable : kind.isWritable) (parted : Parted rest) :
    splitTrivia false (kind.text.toList ++ rest) = ([], kind.text.toList ++ rest) := by
  have word : ∀ {word : String} {c : Char} {run : List Char}, word.toList = c :: run →
      isNameStart c → splitTrivia false (word.toList ++ rest) = ([], word.toList ++ rest) := by
    intro word c run spelled start
    rw [isNameStart_iff] at start
    rw [spelled]
    exact splitTrivia_of_visible (by omega) (by omega) fun slash =>
      absurd start (by rw [slash]; decide)
  cases kind with
  | integer value =>
      obtain ⟨n, -, -, spelled⟩ := exists_of_nonneg (of_decide_eq_true writable)
      rw [spelled]
      cases digits : Decimal.digits n with
      | nil => exact absurd digits (Decimal.digits_ne_nil n)
      | cons c run =>
          have digit : Decimal.isDigit c :=
            Decimal.isDigit_of_mem_digits (n := n) (by simp [digits])
          rw [isDigit_iff] at digit
          exact splitTrivia_of_visible (by omega) (by omega) fun slash =>
            absurd digit (by rw [slash]; decide)
  | identifier name =>
      obtain ⟨-, c, run, spelled, start, -⟩ := exists_of_isName writable
      exact word spelled start
  | keyword reserved => cases reserved <;> exact word rfl rfl
  | symbol mark =>
      have apart : rest.head? ≠ some '/' := by
        intro slash
        exact absurd (parted '/' slash) (by decide)
      cases mark
      case slash => exact splitTrivia_of_visible (by decide) (by decide) fun _ => apart
      all_goals exact splitTrivia_of_visible (by decide) (by decide) nofun
  | endOfFile => cases writable

end Lexemes

/-! ## Texts -/

/-- Characters that are skipped in front of every text. -/
def IsTrivia (gap : List Char) : Prop :=
  ∀ rest, splitTrivia false (gap ++ rest) =
    (gap ++ (splitTrivia false rest).1, (splitTrivia false rest).2)

theorem isTrivia_nil : IsTrivia [] :=
  fun _ => rfl

theorem IsTrivia.cons {c : Char} {gap : List Char} (trivia : IsTrivia gap)
    (space : WhiteSpace.isWhiteSpace c) : IsTrivia (c :: gap) := by
  intro rest
  rw [List.cons_append, splitTrivia]
  · rw [if_pos space, trivia rest]
    rfl
  · rintro later rfl -
    exact absurd space (by decide)

/-- A text of written tokens, from the first one on, that are kept apart by trivia. -/
inductive Spaced : List TokenKind → List Char → Prop
  | nil : Spaced [] []
  | cons {kind : TokenKind} {kinds : List TokenKind} {gap text : List Char}
      (writable : kind.isWritable) (trivia : IsTrivia gap) (parted : Parted (gap ++ text))
      (later : Spaced kinds text) : Spaced (kind :: kinds) (kind.text.toList ++ (gap ++ text))

namespace Scanner

section All

variable {scanner after final : Scanner} {token : Token} {tokens : List Token}

theorem all_of_ordinary (step : scanner.next = (.ok token, after))
    (ordinary : token.kind ≠ .endOfFile) (later : after.all = (.ok tokens, final)) :
    scanner.all = (.ok (token :: tokens), final) := by
  rw [all]
  split
  next fault after' failed =>
    rw [step] at failed
    cases failed
  next token' after' taken =>
    rw [step] at taken
    cases taken
    rw [dif_pos ordinary, later]

theorem all_of_end (step : scanner.next = (.ok token, after)) (ends : token.kind = .endOfFile) :
    scanner.all = (.ok [token], after) := by
  rw [all]
  split
  next fault after' failed =>
    rw [step] at failed
    cases failed
  next token' after' taken =>
    rw [step] at taken
    cases taken
    rw [dif_neg (not_not_intro ends)]

end All

/-- After trivia the next token is the one that is written there. -/
theorem next_text {kind : TokenKind} {gap rest : List Char} (writable : kind.isWritable)
    (trivia : IsTrivia gap) (parted : Parted rest) (position : Position) :
    ∃ span place, (Scanner.mk (gap ++ (kind.text.toList ++ rest)) position).next =
      (.ok ⟨kind, span⟩, ⟨rest, place⟩) := by
  have skipped : (Scanner.mk (gap ++ (kind.text.toList ++ rest)) position).skipTrivia =
      ⟨kind.text.toList ++ rest, position.after (gap ++ [])⟩ := by
    simp only [skipTrivia]
    rw [trivia, splitTrivia_text writable parted]
  unfold next
  simp only [skipped, afterLexeme, Lexeme.ofText_text writable parted]
  exact ⟨_, _, rfl⟩

/-- After trivia the text may end. -/
theorem next_end {gap : List Char} (trivia : IsTrivia gap) (position : Position) :
    ∃ span after, (Scanner.mk gap position).next = (.ok ⟨.endOfFile, span⟩, after) := by
  have whole := trivia []
  rw [List.append_nil] at whole
  have skipped : (Scanner.mk gap position).skipTrivia = ⟨[], position.after (gap ++ [])⟩ := by
    simp only [skipTrivia, whole, splitTrivia]
  unfold next
  simp only [skipped, afterLexeme, Lexeme.ofText]
  exact ⟨_, _, rfl⟩

/-- **A text of written tokens has these tokens.** -/
theorem all_spaced {kinds : List TokenKind} {text gap : List Char} (spaced : Spaced kinds text)
    (trivia : IsTrivia gap) (position : Position) :
    ∃ used span final, (Scanner.mk (gap ++ text) position).all =
      (.ok (used ++ [⟨.endOfFile, span⟩]), final) ∧ used.map Token.kind = kinds := by
  induction spaced generalizing gap position with
  | nil =>
      obtain ⟨span, after, step⟩ := next_end trivia position
      rw [List.append_nil]
      exact ⟨[], span, after, all_of_end step rfl, rfl⟩
  | @cons kind kinds gap' text writable trivia' parted _ ih =>
      obtain ⟨span, place, step⟩ := next_text writable trivia parted position
      obtain ⟨used, stop, final, later, spelled⟩ := ih trivia' place
      have ordinary : kind ≠ .endOfFile := by
        rintro rfl
        cases writable
      exact ⟨⟨kind, span⟩ :: used, stop, final, all_of_ordinary step ordinary later,
        congrArg (kind :: ·) spelled⟩

end Scanner

/-- **The tokens of a text of written tokens.** -/
theorem tokensOf_spaced {kinds : List TokenKind} {text : List Char} (spaced : Spaced kinds text) :
    ∃ used span, tokensOf (String.ofList text) = .ok (used ++ [⟨.endOfFile, span⟩]) ∧
      used.map Token.kind = kinds := by
  obtain ⟨used, span, final, scanned, spelled⟩ :=
    Scanner.all_spaced spaced isTrivia_nil Position.origin
  refine ⟨used, span, ?_, spelled⟩
  rw [tokensOf, Scanner.ofSource, String.toList_ofList]
  exact congrArg Prod.fst scanned

end ProcLang
