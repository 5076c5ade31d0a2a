import ProcLang.Proofs.Token.Spacing

/-!
# Scanned tokens can be written

A token that was scanned has a written form: a word that is no keyword is a name, and
a run of digits that is not too large denotes an integer that is not negative
(`Lexeme.isWritable_of_ok`). So a source text is scanned as tokens that can be written,
with the end of the text after them (`tokensOf_writable`).
-/

set_option autoImplicit false

namespace ProcLang

theorem TokenKind.isWritable_ofWord {c : Char} {run : List Char} (start : isNameStart c)
    (all : run.all isNameChar) : (TokenKind.ofWord (String.ofList (c :: run))).isWritable := by
  unfold TokenKind.ofWord
  split
  next => rfl
  next free =>
    rw [isWritable, isName, String.toList_ofList]
    simp only [start, all, free, Option.isNone_none, Bool.and_self]

theorem TokenKind.isWritable_ofDigits {run : List Char} {kind : TokenKind}
    (read : TokenKind.ofDigits run = .ok kind) : kind.isWritable := by
  unfold TokenKind.ofDigits at read
  split at read
  next small =>
    obtain rfl := Except.ok.inj read
    have bound : Decimal.value run < 2 ^ 31 := Nat.lt_succ_of_le small
    have nonneg : 0 ≤ Int32.ofNat (Decimal.value run) := by
      rw [Int32.le_iff_toInt_le, Int32.toInt_ofNat_of_lt bound]
      exact Int.natCast_nonneg _
    exact decide_eq_true nonneg
  next => cases read

/-- **A lexeme is a token that can be written**, or the end of the text. -/
theorem Lexeme.isWritable_of_ok {source : List Char} {kind : TokenKind}
    (read : (ofText source).kind = .ok kind) (ordinary : kind ≠ .endOfFile) :
    kind.isWritable := by
  revert read
  fun_cases ofText source with
  | case1 => exact fun read => absurd (Except.ok.inj read).symm ordinary
  | case2 c rest start =>
      intro read
      obtain rfl := Except.ok.inj read
      exact TokenKind.isWritable_ofWord start List.all_takeWhile
  | case3 c rest _ digit => exact TokenKind.isWritable_ofDigits
  | case4 =>
      intro read
      obtain rfl := Except.ok.inj read
      rfl
  | case5 =>
      intro read
      cases read
  | case6 =>
      intro read
      obtain rfl := Except.ok.inj read
      rfl
  | case7 =>
      intro read
      cases read

namespace Scanner

theorem isWritable_of_next {scanner after : Scanner} {token : Token}
    (step : scanner.next = (.ok token, after)) (ordinary : token.kind ≠ .endOfFile) :
    token.kind.isWritable := by
  unfold next at step
  simp only at step
  split at step
  next kind read =>
    obtain ⟨rfl, -⟩ := by simpa using step
    exact Lexeme.isWritable_of_ok read ordinary
  next => simp at step

/-- **All tokens but the last can be written**, and the last is the end of the text. -/
theorem writable_of_all {scanner final : Scanner} {tokens : List Token}
    (scanned : scanner.all = (.ok tokens, final)) :
    ∃ used span, tokens = used ++ [⟨.endOfFile, span⟩] ∧
      ∀ token ∈ used, token.kind.isWritable := by
  fun_induction Scanner.all scanner generalizing tokens final with
  | case1 => cases scanned
  | case2 scanner token after step ordinary _ later final' read ih =>
      cases scanned
      obtain ⟨used, span, rfl, all⟩ := ih read
      refine ⟨token :: used, span, rfl, List.forall_mem_cons.mpr ⟨?_, all⟩⟩
      exact isWritable_of_next step ordinary
  | case3 => cases scanned
  | case4 scanner token after step ends =>
      cases scanned
      obtain ⟨kind, span⟩ := token
      obtain rfl : kind = .endOfFile := not_not.mp ends
      exact ⟨[], span, rfl, by simp⟩

end Scanner

/-- **A source text is scanned as tokens that can be written.** -/
theorem tokensOf_writable {source : String} {tokens : List Token}
    (scanned : tokensOf source = .ok tokens) :
    ∃ used span, tokens = used ++ [⟨.endOfFile, span⟩] ∧
      ∀ token ∈ used, token.kind.isWritable :=
  Scanner.writable_of_all (Prod.ext scanned rfl)

end ProcLang
