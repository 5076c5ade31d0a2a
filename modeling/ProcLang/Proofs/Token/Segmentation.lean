import ProcLang.Proofs.Token.Spacing

/-!
# Texts cut into tokens

`Segmented` cuts a text into lexemes with trivia in front of each, without
mention of the scanner. A lexeme spells its token (`TokenKind.SpelledBy`), it
cannot be continued by the next character (`Complete`), and the span of the token
is the line and the column of its two ends (`Position.ofText`).

The scanner succeeds with a list of tokens exactly if the text is cut into them
up to trivia at its end (`CutInto`), and it fails exactly if after some lexemes and
trivia the text is `Faulty` (`StuckAt`); `tokensOf_segmented` states both. Each part of
the scanner is shown to find what the definitions describe, and to find nothing else.
-/

set_option autoImplicit false

namespace ProcLang

/-! ## Places -/

namespace Position

/-- The position after a text: one line more than it has newlines, and one column
more than there are characters after the last of them. -/
def ofText (before : List Char) : Position :=
  ⟨before.count '\n' + 1, (before.reverse.takeWhile (· != '\n')).length + 1⟩

theorem ofText_concat (before : List Char) (c : Char) :
    ofText (before ++ [c]) = (ofText before).next c := by
  by_cases newline : c = '\n'
  · subst newline
    simp [ofText, next]
  · simp [ofText, next, newline]

/-- Walking over a text adds it to what stands before. -/
theorem after_ofText (before run : List Char) :
    (ofText before).after run = ofText (before ++ run) := by
  induction run generalizing before with
  | nil => rw [after_nil, List.append_nil]
  | cons c run ih =>
      rw [after_cons, ← ofText_concat, ih, List.append_assoc, List.singleton_append]

/-- Neither number exceeds the length of the text by more than one. -/
theorem ofText_le (before : List Char) :
    (ofText before).line ≤ before.length + 1 ∧ (ofText before).column ≤ before.length + 1 := by
  have columns := (List.takeWhile_sublist (· != '\n') (l := before.reverse)).length_le
  rw [List.length_reverse] at columns
  exact ⟨Nat.succ_le_succ List.count_le_length, Nat.succ_le_succ columns⟩

end Position

/-! ## Trivia -/

/-- A text starts with white space or with a comment. -/
def StartsTrivia (text : List Char) : Prop :=
  (∃ c ∈ text.head?, WhiteSpace.isWhiteSpace c) ∨ ['/', '/'] <+: text

/-- White space and comments up to a text that starts with neither. A comment runs
up to a newline or to the end. -/
inductive Gap : List Char → List Char → Prop
  | nil {rest : List Char} (visible : ¬ StartsTrivia rest) : Gap [] rest
  | space {c : Char} {gap rest : List Char} (white : WhiteSpace.isWhiteSpace c)
      (later : Gap gap rest) : Gap (c :: gap) rest
  | comment {body gap rest : List Char} (line : '\n' ∉ body)
      (stops : ∀ c ∈ (gap ++ rest).head?, c = '\n') (later : Gap gap rest) :
      Gap ('/' :: '/' :: (body ++ gap)) rest

/-- What is left of a comment, and the trivia after it. -/
def CommentGap (gap rest : List Char) : Prop :=
  ∃ body after, gap = body ++ after ∧ '\n' ∉ body ∧ (∀ c ∈ (after ++ rest).head?, c = '\n') ∧
    Gap after rest

/-- The trivia that is cut off, inside a comment or not. -/
def Skipped : Bool → List Char → List Char → Prop
  | false => Gap
  | true => CommentGap

section Trivia

variable {gap rest body text : List Char}

/-- What is cut off as trivia is trivia. -/
theorem skipped_splitTrivia (inside : Bool) (text : List Char) :
    Skipped inside (splitTrivia inside text).1 (splitTrivia inside text).2 := by
  fun_induction splitTrivia inside text with
  | case1 inside =>
      have ends : Gap [] [] := .nil (by simp [StartsTrivia])
      cases inside with
      | false => exact ends
      | true => exact ⟨[], [], rfl, List.not_mem_nil, by simp, ends⟩
  | case2 c rest trivia remaining cut ih =>
      rw [cut] at ih
      by_cases newline : c = '\n'
      · subst newline
        exact ⟨[], '\n' :: trivia, rfl, List.not_mem_nil, by simp,
          .space WhiteSpace.isWhiteSpace_newline ih⟩
      · rw [bne_iff_ne.mpr newline] at ih
        obtain ⟨body, after, rfl, line, stops, later⟩ := ih
        exact ⟨c :: body, after, rfl, by simp [line, Ne.symm newline], stops, later⟩
  | case3 rest trivia remaining cut ih =>
      rw [cut] at ih
      obtain ⟨body, after, rfl, line, stops, later⟩ := ih
      exact .comment line stops later
  | case4 c rest notComment white trivia remaining cut ih =>
      rw [cut] at ih
      exact .space white ih
  | case5 c rest notComment visible =>
      refine .nil ?_
      rintro (⟨d, first, white⟩ | ⟨more, comment⟩)
      · cases first
        exact visible white
      · cases comment
        exact notComment more rfl rfl

/-- A comment is passed over up to its newline. -/
theorem splitTrivia_comment (line : '\n' ∉ body) (stops : ∀ c ∈ text.head?, c = '\n') :
    splitTrivia true (body ++ text) =
      (body ++ (splitTrivia false text).1, (splitTrivia false text).2) := by
  induction body with
  | nil =>
      cases text with
      | nil => rfl
      | cons c text =>
          obtain rfl := stops c rfl
          rfl
  | cons c body ih =>
      obtain ⟨other, line⟩ : '\n' ≠ c ∧ '\n' ∉ body := by simpa using line
      rw [List.cons_append, splitTrivia, bne_iff_ne.mpr (Ne.symm other), ih line]
      rfl

/-- Trivia is cut off whole. -/
theorem splitTrivia_gap (skipped : Gap gap rest) :
    splitTrivia false (gap ++ rest) = (gap, rest) := by
  induction skipped with
  | @nil rest visible =>
      cases rest with
      | nil => rfl
      | cons c rest =>
          rw [List.nil_append, splitTrivia]
          · rw [if_neg fun white => visible (.inl ⟨c, rfl, white⟩)]
          · rintro more rfl rfl
            exact visible (.inr ⟨more, rfl⟩)
  | @space c gap rest white later ih =>
      rw [List.cons_append, splitTrivia]
      · rw [if_pos white, ih]
      · rintro more rfl -
        exact absurd white (by decide)
  | @comment body gap rest line stops later ih =>
      rw [List.cons_append, List.cons_append, splitTrivia, List.append_assoc,
        splitTrivia_comment line stops, ih]

end Trivia

/-! ## Lexemes -/

/-- The spelling of a name or a keyword. -/
def IsWord (run : List Char) : Prop :=
  ∃ c more, run = c :: more ∧ isNameStart c ∧ ∀ d ∈ more, isNameChar d

/-- A run of digits. -/
def IsNumeral (run : List Char) : Prop :=
  run ≠ [] ∧ ∀ c ∈ run, Decimal.isDigit c

/-- The spelling of a symbol. -/
def IsSymbol (run : List Char) : Prop :=
  ∃ mark : Symbol, run = mark.text.toList

/-- A token is spelled by a run of characters: an integer by digits that have its
value, and anything else by its written form. A word that is no keyword spells an
identifier. -/
def TokenKind.SpelledBy : TokenKind → List Char → Prop
  | .integer value, run => IsNumeral run ∧ (Decimal.value run : Int) = value.toInt
  | .identifier name, run =>
      run = (identifier name).text.toList ∧ IsWord run ∧ ∀ word : Keyword, word.text ≠ name
  | .keyword word, run => run = (keyword word).text.toList
  | .symbol mark, run => run = (symbol mark).text.toList
  | .endOfFile, _ => False

/-- The next character does not make a run into a longer word, number or symbol. -/
def Complete (run rest : List Char) : Prop :=
  ∀ c ∈ rest.head?, ¬ IsWord (run ++ [c]) ∧ ¬ IsNumeral (run ++ [c]) ∧ ¬ IsSymbol (run ++ [c])

section Shapes

variable {c : Char} {run : List Char}

theorem isWord_cons : IsWord (c :: run) ↔ isNameStart c ∧ ∀ d ∈ run, isNameChar d := by
  constructor
  · rintro ⟨c, run, ⟨⟩, start, all⟩
    exact ⟨start, all⟩
  · rintro ⟨start, all⟩
    exact ⟨c, run, rfl, start, all⟩

theorem isNumeral_cons :
    IsNumeral (c :: run) ↔ Decimal.isDigit c ∧ ∀ d ∈ run, Decimal.isDigit d := by
  simp [IsNumeral]

theorem text_of_ofChar? {mark : Symbol} (known : Symbol.ofChar? c = some mark) :
    mark.text.toList = [c] := by
  unfold Symbol.ofChar? at known
  split at known <;> cases known <;> rfl

theorem text_of_beforeEquals? {mark : Symbol} (known : Symbol.beforeEquals? c = some mark) :
    mark.text.toList = [c, '='] := by
  unfold Symbol.beforeEquals? at known
  split at known <;> cases known <;> rfl

/-- A symbol is one character, or one in front of an equals sign. -/
theorem isSymbol_cons : IsSymbol (c :: run) ↔
    (run = [] ∧ (Symbol.ofChar? c).isSome) ∨ (run = ['='] ∧ (Symbol.beforeEquals? c).isSome) := by
  constructor
  · rintro ⟨mark, spelled⟩
    cases mark <;> simp [Symbol.text] at spelled <;> obtain ⟨rfl, rfl⟩ := spelled <;>
      simp [Symbol.ofChar?, Symbol.beforeEquals?]
  · rintro (⟨rfl, known⟩ | ⟨rfl, known⟩)
    · obtain ⟨mark, known⟩ := Option.isSome_iff_exists.mp known
      exact ⟨mark, (text_of_ofChar? known).symm⟩
    · obtain ⟨mark, known⟩ := Option.isSome_iff_exists.mp known
      exact ⟨mark, (text_of_beforeEquals? known).symm⟩

/-- No symbol starts like a word or a number. -/
theorem not_isSymbol_of_isNameChar (named : isNameChar c) : ¬ IsSymbol (c :: run) := by
  rintro ⟨mark, spelled⟩
  cases mark <;> simp [Symbol.text] at spelled <;> obtain ⟨rfl, -⟩ := spelled <;> cases named

theorem isDigit_of_isNameStart (start : isNameStart c) : Decimal.isDigit c = false := by
  by_contra digit
  rw [isNameStart_of_isDigit (Bool.of_not_eq_false digit)] at start
  cases start

theorem complete_word {rest : List Char} (start : isNameStart c)
    (stops : ∀ d ∈ rest.head?, isNameChar d = false) : Complete (c :: run) rest := by
  intro d next
  rw [List.cons_append]
  refine ⟨fun word => ?_, fun numeral => ?_, ?_⟩
  · have := (isWord_cons.mp word).2 d (by simp)
    simp [stops d next] at this
  · have := (isNumeral_cons.mp numeral).1
    simp [isDigit_of_isNameStart start] at this
  · exact not_isSymbol_of_isNameChar (by simp [isNameChar, start])

theorem complete_numeral {rest : List Char} (digit : Decimal.isDigit c)
    (stops : ∀ d ∈ rest.head?, Decimal.isDigit d = false) : Complete (c :: run) rest := by
  intro d next
  rw [List.cons_append]
  refine ⟨fun word => ?_, fun numeral => ?_, ?_⟩
  · have := (isWord_cons.mp word).1
    simp [isNameStart_of_isDigit digit] at this
  · have := (isNumeral_cons.mp numeral).2 d (by simp)
    simp [stops d next] at this
  · exact not_isSymbol_of_isNameChar (by simp [isNameChar, digit])

/-- A symbol is complete if it is no first half of another. -/
theorem complete_symbol {rest : List Char} (notStart : ¬ isNameStart c)
    (notDigit : ¬ Decimal.isDigit c)
    (whole : run = [] → Symbol.beforeEquals? c = none) : Complete (c :: run) rest := by
  intro d next
  rw [List.cons_append]
  refine ⟨fun word => notStart (isWord_cons.mp word).1,
    fun numeral => notDigit (isNumeral_cons.mp numeral).1, fun mark => ?_⟩
  rcases isSymbol_cons.mp mark with ⟨single, -⟩ | ⟨pair, known⟩
  · simp at single
  · cases run with
    | nil => simp [whole rfl] at known
    | cons e run => simp at pair

theorem dropWhile_stops (accept : Char → Bool) (text : List Char) :
    ∀ d ∈ (text.dropWhile accept).head?, accept d = false := by
  intro d next
  have stop := List.head?_dropWhile_not accept text
  rw [Option.mem_def.mp next] at stop
  exact stop

end Shapes

/-- A word spells a keyword if it is one, and an identifier if not. -/
theorem TokenKind.spelledBy_ofWord {run : List Char} (word : IsWord run) :
    (TokenKind.ofWord (String.ofList run)).SpelledBy run := by
  unfold TokenKind.ofWord
  split
  next reserved known =>
    have same := List.find?_some known
    simp only [beq_iff_eq] at same
    show run = reserved.text.toList
    rw [same, String.toList_ofList]
  next free =>
    refine ⟨String.toList_ofList.symm, word, fun reserved same => ?_⟩
    have rejected := List.find?_eq_none.mp free reserved reserved.mem_all
    simp [same] at rejected

theorem TokenKind.spelledBy_ofDigits {run : List Char} {kind : TokenKind} (digits : IsNumeral run)
    (read : TokenKind.ofDigits run = .ok kind) : kind.SpelledBy run := by
  unfold TokenKind.ofDigits at read
  split at read
  next small =>
    obtain rfl := Except.ok.inj read
    exact ⟨digits, (Int32.toInt_ofNat_of_lt (Nat.lt_succ_of_le small)).symm⟩
  next => cases read

namespace Lexeme

variable {source run rest : List Char} {kind : TokenKind} {fault : LexicalFault}

/-- **A lexeme spells its token, and nothing continues it.** -/
theorem spelledBy_of_ok (read : (ofText source).kind = .ok kind) (ordinary : kind ≠ .endOfFile) :
    kind.SpelledBy (ofText source).text ∧ Complete (ofText source).text (ofText source).rest := by
  revert read
  fun_cases ofText source with
  | case1 => exact fun read => absurd (Except.ok.inj read).symm ordinary
  | case2 c rest start =>
      intro read
      obtain rfl := Except.ok.inj read
      have word : IsWord (c :: rest.takeWhile isNameChar) :=
        isWord_cons.mpr ⟨start, fun d member => List.mem_takeWhile_imp member⟩
      exact ⟨TokenKind.spelledBy_ofWord word, complete_word start (dropWhile_stops _ _)⟩
  | case3 c rest notStart digit =>
      intro read
      have digits : IsNumeral (c :: rest.takeWhile Decimal.isDigit) :=
        isNumeral_cons.mpr ⟨digit, fun d member => List.mem_takeWhile_imp member⟩
      exact ⟨TokenKind.spelledBy_ofDigits digits read, complete_numeral digit (dropWhile_stops _ _)⟩
  | case4 c notStart notDigit mark rest known =>
      intro read
      obtain rfl := Except.ok.inj read
      exact ⟨(text_of_beforeEquals? known).symm, complete_symbol notStart notDigit (by simp)⟩
  | case5 =>
      intro read
      cases read
  | case6 c notStart notDigit rest other mark known =>
      intro read
      obtain rfl := Except.ok.inj read
      exact ⟨(text_of_ofChar? known).symm, complete_symbol notStart notDigit fun _ => other⟩
  | case7 =>
      intro read
      cases read

/-- No character of a name follows a complete word. -/
theorem name_stops (word : IsWord run) (complete : Complete run rest) :
    ∀ c ∈ rest.head?, isNameChar c = false := by
  obtain ⟨first, more, rfl, start, all⟩ := word
  intro c next
  by_contra named
  refine (complete c next).1 (isWord_cons.mpr ⟨start, fun d member => ?_⟩)
  rcases List.mem_append.mp member with inner | last
  · exact all d inner
  · rw [List.mem_singleton.mp last]
    exact Bool.of_not_eq_false named

/-- No digit follows a complete number. -/
theorem digit_stops (digits : IsNumeral run) (complete : Complete run rest) :
    ∀ c ∈ rest.head?, Decimal.isDigit c = false := by
  intro c next
  by_contra digit
  refine (complete c next).2.1 ⟨by simp, fun d member => ?_⟩
  rcases List.mem_append.mp member with inner | last
  · exact digits.2 d inner
  · rw [List.mem_singleton.mp last]
    exact Bool.of_not_eq_false digit

/-- **What spells a token is scanned as it**, if nothing continues it. -/
theorem ofText_spelled (spelled : kind.SpelledBy run) (complete : Complete run rest) :
    ofText (run ++ rest) = ⟨.ok kind, run, rest⟩ := by
  cases kind with
  | integer value =>
      obtain ⟨digits, same⟩ := spelled
      have high := value.toInt_lt
      have small : Decimal.value run ≤ maxInteger := by
        unfold maxInteger
        omega
      have denoted : Int32.ofNat (Decimal.value run) = value := by
        rw [← Int32.ofInt_toInt value, ← same]
        exact Int32.ofInt_eq_ofNat.symm
      rw [ofText_run digits.1 digits.2 (digit_stops digits complete), TokenKind.ofDigits,
        if_pos small, denoted]
  | identifier name =>
      obtain ⟨same, word, free⟩ := spelled
      obtain ⟨c, more, cut, start, all⟩ := word
      have stops := name_stops (isWord_cons.mpr ⟨start, all⟩) (cut ▸ complete)
      have kind : TokenKind.ofWord name = .identifier name := by
        have none : Keyword.ofText? name = none :=
          List.find?_eq_none.mpr fun word _ => by simp [free word]
        rw [TokenKind.ofWord, none]
      obtain rfl : run = name.toList := same
      rw [← kind]
      exact ofText_word cut start all stops
  | keyword word =>
      have reserved : ∀ word : Keyword, ∃ c more, word.text.toList = c :: more ∧ isNameStart c ∧
          more.all isNameChar ∧ TokenKind.ofWord word.text = .keyword word := by
        intro word
        cases word <;> exact ⟨_, _, rfl, rfl, rfl, rfl⟩
      obtain ⟨c, more, cut, start, all, kind⟩ := reserved word
      obtain rfl : run = word.text.toList := spelled
      have all := List.all_eq_true.mp all
      have stops := name_stops (isWord_cons.mpr ⟨start, all⟩) (cut ▸ complete)
      rw [← kind]
      exact ofText_word cut start all stops
  | symbol mark =>
      cases spelled
      cases mark <;> rfl
  | endOfFile => cases spelled

end Lexeme

/-! ## Faults -/

/-- No token can be read at the front of a text: it starts with a character that
starts no token, with the first half of a symbol, or with digits that denote too
large an integer. -/
inductive Faulty : List Char → LexicalFault → Prop
  | stray {c : Char} {rest : List Char} (none : ∀ kind run, ¬ TokenKind.SpelledBy kind (c :: run)) :
      Faulty (c :: rest) (.unexpectedCharacter c)
  | half {c : Char} {rest : List Char} (first : c ∈ [':', '=', '!'])
      (alone : rest.head? ≠ some '=') : Faulty (c :: rest) (.unexpectedCharacter c)
  | large {run rest : List Char} (digits : IsNumeral run)
      (whole : ∀ c ∈ rest.head?, ¬ Decimal.isDigit c) (above : 2 ^ 31 - 1 < Decimal.value run) :
      Faulty (run ++ rest) (.integerOutOfRange (String.ofList run))

theorem isSome_beforeEquals? {c : Char} :
    (Symbol.beforeEquals? c).isSome ↔ c ∈ [':', '=', '!'] := by
  unfold Symbol.beforeEquals?
  split <;> simp_all

theorem Keyword.isWord_text (word : Keyword) : IsWord word.text.toList := by
  cases word <;> exact ⟨_, _, rfl, rfl, List.all_eq_true.mp rfl⟩

/-- The characters that start a token. -/
theorem exists_spelledBy_cons {c : Char} : (∃ kind run, TokenKind.SpelledBy kind (c :: run)) ↔
    isNameStart c ∨ Decimal.isDigit c ∨ (Symbol.ofChar? c).isSome ∨
      (Symbol.beforeEquals? c).isSome := by
  constructor
  · rintro ⟨kind, run, spelled⟩
    cases kind with
    | integer value => exact .inr (.inl (isNumeral_cons.mp spelled.1).1)
    | identifier name => exact .inl (isWord_cons.mp spelled.2.1).1
    | keyword word =>
        have same : c :: run = word.text.toList := spelled
        exact .inl (isWord_cons.mp (same ▸ word.isWord_text)).1
    | symbol mark =>
        rcases isSymbol_cons.mp ⟨mark, spelled⟩ with ⟨-, single⟩ | ⟨-, pair⟩
        · exact .inr (.inr (.inl single))
        · exact .inr (.inr (.inr pair))
    | endOfFile => cases spelled
  · rintro (start | digit | single | pair)
    · exact ⟨_, [], TokenKind.spelledBy_ofWord (isWord_cons.mpr ⟨start, by simp⟩)⟩
    · have digits : IsNumeral [c] := isNumeral_cons.mpr ⟨digit, by simp⟩
      have small : Decimal.value [c] ≤ maxInteger := by
        have range := isDigit_iff.mp digit
        simp [Decimal.value, maxInteger]
        omega
      exact ⟨_, [], TokenKind.spelledBy_ofDigits digits (if_pos small)⟩
    · obtain ⟨mark, known⟩ := Option.isSome_iff_exists.mp single
      exact ⟨.symbol mark, [], (text_of_ofChar? known).symm⟩
    · obtain ⟨mark, known⟩ := Option.isSome_iff_exists.mp pair
      exact ⟨.symbol mark, ['='], (text_of_beforeEquals? known).symm⟩

namespace Lexeme

variable {source : List Char} {fault : LexicalFault}

/-- **Where the scanner fails, the text is faulty.** -/
theorem faulty_of_error (failed : (ofText source).kind = .error fault) : Faulty source fault := by
  revert failed
  fun_cases ofText source with
  | case1 =>
      intro failed
      cases failed
  | case2 =>
      intro failed
      cases failed
  | case3 c rest notStart digit =>
      intro failed
      rw [TokenKind.ofDigits] at failed
      split at failed
      next => cases failed
      next large =>
        cases failed
        have digits : IsNumeral (c :: rest.takeWhile Decimal.isDigit) :=
          isNumeral_cons.mpr ⟨digit, fun d member => List.mem_takeWhile_imp member⟩
        have whole : ∀ d ∈ (rest.dropWhile Decimal.isDigit).head?, ¬ Decimal.isDigit d :=
          fun d next => by simp [dropWhile_stops Decimal.isDigit rest d next]
        have faulty := Faulty.large digits whole (not_le.mp large)
        rwa [List.cons_append, List.takeWhile_append_dropWhile] at faulty
  | case4 =>
      intro failed
      cases failed
  | case5 c notStart notDigit rest mark alone known =>
      intro failed
      cases failed
      refine .half (isSome_beforeEquals?.mp (by rw [known]; rfl)) fun next => ?_
      obtain ⟨more, rfl⟩ := List.head?_eq_some_iff.mp next
      exact alone more rfl
  | case6 =>
      intro failed
      cases failed
  | case7 c notStart notDigit rest other unknown =>
      intro failed
      cases failed
      refine .stray fun kind run spelled => ?_
      have starts := exists_spelledBy_cons.mp ⟨kind, run, spelled⟩
      simp [notStart, notDigit, other, unknown] at starts

/-- **Where a text is faulty, the scanner fails.** -/
theorem kind_of_faulty (faulty : Faulty source fault) : (ofText source).kind = .error fault := by
  cases faulty with
  | @stray c rest none =>
      have starts : ¬ (isNameStart c ∨ Decimal.isDigit c ∨ (Symbol.ofChar? c).isSome ∨
          (Symbol.beforeEquals? c).isSome) := by
        rw [← exists_spelledBy_cons]
        rintro ⟨kind, run, spelled⟩
        exact none kind run spelled
      simp only [not_or, Option.not_isSome_iff_eq_none] at starts
      obtain ⟨notStart, notDigit, unknown, other⟩ := starts
      simp [ofText.eq_def, notStart, notDigit, unknown, other]
  | @half c rest first alone =>
      obtain ⟨mark, known⟩ := Option.isSome_iff_exists.mp (isSome_beforeEquals?.mpr first)
      have other : ¬ isNameStart c ∧ ¬ Decimal.isDigit c := by
        fin_cases first <;> exact ⟨by decide, by decide⟩
      cases rest with
      | nil => simp [ofText.eq_def, other, known]
      | cons d rest =>
          have alone : d ≠ '=' := by simpa using alone
          simp [ofText.eq_def, other, known, alone]
  | @large run rest digits whole above =>
      rw [ofText_run digits.1 digits.2 fun c next => Bool.eq_false_iff.mpr (whole c next)]
      exact if_neg (not_le.mpr above)

/-- Only where nothing is left does the scanner find the end. -/
theorem eq_nil_of_end (read : (ofText source).kind = .ok .endOfFile) : source = [] := by
  revert read
  fun_cases ofText source with
  | case1 => exact fun _ => rfl
  | case2 c rest =>
      intro read
      exact absurd (Except.ok.inj read) (ofWord_ne_endOfFile _)
  | case3 c rest =>
      intro read
      rw [TokenKind.ofDigits] at read
      split at read <;> cases read
  | _ =>
      intro read
      cases read

end Lexeme

/-! ## Texts -/

/-- The place after a text. -/
def placeAfter (before : List Char) : Location :=
  (Position.ofText before).location

/-- Between `before` and `rest`, a text is cut into tokens with trivia in front of
each. -/
inductive Segmented (rest : List Char) : List Char → List Char → List Token → Prop
  | nil {before : List Char} : Segmented rest before [] []
  | cons {before gap run text : List Char} {kind : TokenKind} {tokens : List Token}
      (skipped : Gap gap (run ++ (text ++ rest))) (spelled : kind.SpelledBy run)
      (complete : Complete run (text ++ rest))
      (later : Segmented rest (before ++ gap ++ run) text tokens) :
      Segmented rest before (gap ++ (run ++ text))
        (⟨kind, placeAfter (before ++ gap), placeAfter (before ++ gap ++ run)⟩ :: tokens)

/-- After `before`, a text is cut into tokens and trivia at its end. The last token
is the end of the text, which takes no room. -/
def CutInto (before text : List Char) (tokens : List Token) : Prop :=
  ∃ front gap used, text = front ++ gap ∧ Segmented gap before front used ∧ Gap gap [] ∧
    tokens = used ++ [⟨.endOfFile, placeAfter (before ++ text), placeAfter (before ++ text)⟩]

/-- After `before`, some tokens and trivia are cut off a text, and what is left is
faulty. -/
def StuckAt (before text : List Char) (error : LexicalError) : Prop :=
  ∃ front gap rest used, text = front ++ (gap ++ rest) ∧
    Segmented (gap ++ rest) before front used ∧ Gap gap rest ∧ Faulty rest error.fault ∧
    error.location = placeAfter (before ++ front ++ gap)

namespace Scanner

variable {before gap run text rest : List Char} {kind : TokenKind} {fault : LexicalFault}

theorem skipTrivia_gap (skipped : Gap gap rest) (before : List Char) :
    (Scanner.mk (gap ++ rest) (.ofText before)).skipTrivia = ⟨rest, .ofText (before ++ gap)⟩ := by
  simp only [skipTrivia, splitTrivia_gap skipped, Position.after_ofText]

/-! ### One step -/

theorem next_of_spelled (skipped : Gap gap (run ++ text)) (spelled : kind.SpelledBy run)
    (complete : Complete run text) (before : List Char) :
    (Scanner.mk (gap ++ (run ++ text)) (.ofText before)).next =
      (.ok ⟨kind, placeAfter (before ++ gap), placeAfter (before ++ gap ++ run)⟩,
        ⟨text, .ofText (before ++ gap ++ run)⟩) := by
  simp only [next, skipTrivia_gap skipped, afterLexeme, Lexeme.ofText_spelled spelled complete,
    Position.after_ofText]
  rfl

theorem next_of_end (skipped : Gap gap []) (before : List Char) :
    (Scanner.mk gap (.ofText before)).next =
      (.ok ⟨.endOfFile, placeAfter (before ++ gap), placeAfter (before ++ gap)⟩,
        ⟨[], .ofText (before ++ gap)⟩) := by
  have skip := skipTrivia_gap skipped before
  rw [List.append_nil] at skip
  simp only [next, skip, afterLexeme, Lexeme.ofText, Position.after_nil]
  rfl

theorem next_of_faulty (skipped : Gap gap rest) (faulty : Faulty rest fault) (before : List Char) :
    (Scanner.mk (gap ++ rest) (.ofText before)).next.1 =
      .error ⟨placeAfter (before ++ gap), fault⟩ := by
  simp only [next, skipTrivia_gap skipped, Lexeme.kind_of_faulty faulty]
  rfl

end Scanner

/-- After its trivia a text ends, starts with a lexeme, or is faulty. -/
theorem segment_cases (text : List Char) :
    Gap text [] ∨
      (∃ gap run rest kind, text = gap ++ (run ++ rest) ∧ Gap gap (run ++ rest) ∧
        TokenKind.SpelledBy kind run ∧ Complete run rest) ∨
      ∃ gap rest fault, text = gap ++ rest ∧ Gap gap rest ∧ Faulty rest fault := by
  have skipped : Gap _ _ := skipped_splitTrivia false text
  have whole := splitTrivia_append false text
  revert skipped whole
  generalize (splitTrivia false text).1 = gap
  generalize (splitTrivia false text).2 = rest
  rintro skipped rfl
  cases read : (Lexeme.ofText rest).kind with
  | error fault => exact .inr (.inr ⟨gap, rest, fault, rfl, skipped, Lexeme.faulty_of_error read⟩)
  | ok kind =>
      by_cases ends : kind = .endOfFile
      · subst ends
        obtain rfl := Lexeme.eq_nil_of_end read
        rw [List.append_nil]
        exact .inl skipped
      · obtain ⟨spelled, complete⟩ := Lexeme.spelledBy_of_ok read ends
        have cut := Lexeme.text_append_rest rest
        exact .inr (.inl ⟨gap, _, _, kind, by rw [cut], by rwa [cut], spelled, complete⟩)

theorem TokenKind.SpelledBy.ne_nil {kind : TokenKind} {run : List Char}
    (spelled : kind.SpelledBy run) : run ≠ [] := by
  rintro rfl
  cases kind with
  | integer value => exact spelled.1.1 rfl
  | identifier name =>
      obtain ⟨c, more, ⟨⟩, -⟩ := spelled.2.1
  | keyword word => cases word <;> cases spelled
  | symbol mark => cases mark <;> cases spelled
  | endOfFile => exact spelled

theorem TokenKind.SpelledBy.ne_endOfFile {kind : TokenKind} {run : List Char}
    (spelled : kind.SpelledBy run) : kind ≠ .endOfFile := by
  rintro rfl
  exact spelled

/-- **Every text is cut into tokens, or it is faulty after some of them.** -/
theorem cutInto_or_stuckAt (before text : List Char) :
    (∃ tokens, CutInto before text tokens) ∨ ∃ error, StuckAt before text error := by
  induction size : text.length using Nat.strong_induction_on generalizing before text with
  | h size ih =>
  subst size
  rcases segment_cases text with ends | ⟨gap, run, rest, kind, rfl, skipped, spelled, complete⟩ |
    ⟨gap, rest, fault, rfl, skipped, faulty⟩
  · exact .inl ⟨_, [], text, [], rfl, .nil, ends, rfl⟩
  · have taken := List.length_pos_iff.mpr spelled.ne_nil
    have shorter : rest.length < (gap ++ (run ++ rest)).length := by
      simp only [List.length_append]
      omega
    rcases ih _ shorter (before ++ gap ++ run) rest rfl with
      ⟨tokens, front, last, used, rfl, later, ends, rfl⟩ |
      ⟨error, front, gap', rest', used, rfl, later, skipped', faulty, located⟩
    · refine .inl ⟨_, gap ++ (run ++ front), last, _ :: used, ?_,
        .cons skipped spelled complete later, ends, rfl⟩
      simp only [List.append_assoc]
    · refine .inr ⟨error, gap ++ (run ++ front), gap', rest', _ :: used, ?_,
        .cons skipped spelled complete later, skipped', faulty, ?_⟩
      · simp only [List.append_assoc]
      · rw [located]
        simp only [List.append_assoc]
  · exact .inr ⟨⟨_, fault⟩, [], gap, rest, [], rfl, .nil, skipped, faulty, rfl⟩

namespace Scanner

/-! ### All steps -/

variable {before text : List Char} {tokens : List Token} {error : LexicalError}

/-- A failure after a token is the failure of the whole. -/
theorem all_error_of_ordinary {scanner after : Scanner} {token : Token}
    (step : scanner.next = (.ok token, after)) (ordinary : token.kind ≠ .endOfFile)
    (later : after.all.1 = .error error) : scanner.all.1 = .error error := by
  cases read : after.all with
  | mk result final =>
    rw [read] at later
    obtain rfl : result = .error error := later
    rw [all]
    split
    next fault after' failed =>
      rw [step] at failed
      cases failed
    next token' after' taken =>
      rw [step] at taken
      cases taken
      rw [dif_pos ordinary, read]

theorem all_error_of_fault {scanner : Scanner} (failed : scanner.next.1 = .error error) :
    scanner.all.1 = .error error := by
  rw [all]
  split
  next fault after' step =>
    rw [step] at failed
    cases failed
    rfl
  next token' after' step =>
    rw [step] at failed
    cases failed

/-- **A text that is cut into tokens is scanned as them.** -/
theorem all_of_cutInto (cut : CutInto before text tokens) :
    (Scanner.mk text (.ofText before)).all.1 = .ok tokens := by
  obtain ⟨front, gap, used, rfl, segmented, ends, rfl⟩ := cut
  have scanned : (Scanner.mk (front ++ gap) (.ofText before)).all =
      (.ok (used ++ [⟨.endOfFile, placeAfter (before ++ (front ++ gap)),
        placeAfter (before ++ (front ++ gap))⟩]), ⟨[], .ofText (before ++ (front ++ gap))⟩) := by
    induction segmented with
    | nil => exact all_of_end (next_of_end ends _) rfl
    | cons skipped spelled complete later ih =>
        have step := all_of_ordinary (next_of_spelled skipped spelled complete _)
          spelled.ne_endOfFile ih
        simp only [List.append_assoc] at step ⊢
        exact step
  rw [scanned]

/-- **A text that is faulty after some tokens is not scanned**, and the error names
the fault and its place. -/
theorem all_of_stuckAt (stuck : StuckAt before text error) :
    (Scanner.mk text (.ofText before)).all.1 = .error error := by
  obtain ⟨front, gap, rest, used, rfl, segmented, skipped, faulty, located⟩ := stuck
  induction segmented with
  | nil =>
      refine all_error_of_fault ?_
      rw [List.nil_append, next_of_faulty skipped faulty]
      rw [List.append_nil] at located
      rw [← located]
  | cons skipped' spelled complete later ih =>
      have failed := ih (by simpa only [List.append_assoc] using located)
      have step := all_error_of_ordinary (next_of_spelled skipped' spelled complete _)
        spelled.ne_endOfFile failed
      simpa only [List.append_assoc] using step

end Scanner

/-- **Scanning cuts a text into the longest lexemes, and loses nothing.** It succeeds
with a list of tokens exactly if the text is cut into them, and it fails with an
error exactly if after some tokens the text is faulty there. In a text shorter than
`2 ^ 32 - 1` characters no line and no column reaches `2 ^ 32`. -/
theorem tokensOf_segmented (source : String) :
    (∀ tokens, tokensOf source = .ok tokens ↔ CutInto [] source.toList tokens) ∧
      (∀ error, tokensOf source = .error error ↔ StuckAt [] source.toList error) ∧
      (source.length < 2 ^ 32 - 1 → ∀ before, before <+: source.toList →
        (placeAfter before).line < 2 ^ 32 ∧ (placeAfter before).column < 2 ^ 32) := by
  have cut : ∀ tokens, CutInto [] source.toList tokens → tokensOf source = .ok tokens :=
    fun _ => Scanner.all_of_cutInto
  have stuck : ∀ error, StuckAt [] source.toList error → tokensOf source = .error error :=
    fun _ => Scanner.all_of_stuckAt
  refine ⟨fun tokens => ⟨fun scanned => ?_, cut tokens⟩,
    fun error => ⟨fun failed => ?_, stuck error⟩, fun short before front => ?_⟩
  · rcases cutInto_or_stuckAt [] source.toList with ⟨tokens', found⟩ | ⟨error, found⟩
    · rw [cut _ found] at scanned
      cases scanned
      exact found
    · rw [stuck _ found] at scanned
      cases scanned
  · rcases cutInto_or_stuckAt [] source.toList with ⟨tokens, found⟩ | ⟨error', found⟩
    · rw [cut _ found] at failed
      cases failed
    · rw [stuck _ found] at failed
      cases failed
      exact found
  · have bound := Position.ofText_le before
    have inside := front.length_le
    rw [String.length_toList] at inside
    simp only [placeAfter, Position.location]
    omega

/-- A comment, a keyword that is not continued, and a symbol of two characters; and a
text whose second line holds the first half of a symbol. -/
theorem tokensOf_segmented_lines :
    CutInto [] "//x\nif ifs==7".toList
        [⟨.keyword .kwIf, ⟨"<input>", 2, 1⟩, ⟨"<input>", 2, 3⟩⟩,
          ⟨.identifier "ifs", ⟨"<input>", 2, 4⟩, ⟨"<input>", 2, 7⟩⟩,
          ⟨.symbol .equalEqual, ⟨"<input>", 2, 7⟩, ⟨"<input>", 2, 9⟩⟩,
          ⟨.integer 7, ⟨"<input>", 2, 9⟩, ⟨"<input>", 2, 10⟩⟩,
          ⟨.endOfFile, ⟨"<input>", 2, 10⟩, ⟨"<input>", 2, 10⟩⟩] ∧
      StuckAt [] "a\n :b".toList ⟨⟨"<input>", 2, 2⟩, .unexpectedCharacter ':'⟩ ∧
      "a".length < 2 ^ 32 - 1 ∧ (placeAfter "a".toList).column < 2 ^ 32 :=
  ⟨((tokensOf_segmented _).1 _).mp (by cbv), ((tokensOf_segmented _).2.1 _).mp (by cbv),
    by decide, ((tokensOf_segmented "a").2.2 (by decide) _ List.prefix_rfl).2⟩

end ProcLang
