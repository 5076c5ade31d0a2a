/-!
# Decimal numerals

Numbers are written in base ten without leading zeros. Reading a run of digits
ignores leading zeros, so it undoes writing (`value_digits`) without being its
inverse on every run.
-/

set_option autoImplicit false

namespace ProcLang.Decimal

/-- The digit for the last place of `n`. -/
def digit (n : Nat) : Char :=
  Char.ofNat ('0'.toNat + n % 10)

/-- The digits of `n`, most significant first; zero is one digit. -/
def digits (n : Nat) : List Char :=
  if n < 10 then [digit n] else digits (n / 10) ++ [digit n]

/-- One of the ten ASCII digits. -/
def isDigit (c : Char) : Bool :=
  '0' ≤ c && c ≤ '9'

/-- The number a run of digits denotes. -/
def value (run : List Char) : Nat :=
  run.foldl (fun total c => 10 * total + (c.toNat - '0'.toNat)) 0

/-- The digits of an integer, after a minus sign if it is negative. -/
def signedDigits : Int → List Char
  | .ofNat n => digits n
  | .negSucc n => '-' :: digits (n + 1)

/-- A natural number as text. -/
def text (n : Nat) : String :=
  String.ofList (digits n)

/-- An integer as text. -/
def signedText (n : Int) : String :=
  String.ofList (signedDigits n)

/-! ## Reading undoes writing -/

theorem toNat_digit (n : Nat) : (digit n).toNat = '0'.toNat + n % 10 := by
  have valid : ('0'.toNat + n % 10).isValidChar := by
    have bound := Nat.mod_lt n (by decide : 0 < 10)
    left
    show 48 + n % 10 < 0xd800
    omega
  rw [digit, Char.ofNat, dif_pos valid]
  rfl

theorem isDigit_digit (n : Nat) : isDigit (digit n) = true := by
  have bound := Nat.mod_lt n (by decide : 0 < 10)
  have spelled := toNat_digit n
  have low : ('0' : Char).toNat ≤ (digit n).toNat := by omega
  have high : (digit n).toNat ≤ ('9' : Char).toNat := by
    rw [spelled]
    show 48 + n % 10 ≤ 57
    omega
  simpa [isDigit, Char.le_def, UInt32.le_iff_toNat_le] using And.intro low high

theorem value_append_digit (run : List Char) (n : Nat) :
    value (run ++ [digit n]) = 10 * value run + n % 10 := by
  simp [value, List.foldl_append, toNat_digit]

/-- A written number reads back. -/
theorem value_digits (n : Nat) : value (digits n) = n := by
  fun_induction digits n with
  | case1 n small =>
    have := value_append_digit [] n
    simp only [List.nil_append] at this
    rw [this]
    simp [value]
    omega
  | case2 n _ ih =>
    rw [value_append_digit, ih]
    omega

theorem isDigit_of_mem_digits {n : Nat} {c : Char} (member : c ∈ digits n) :
    isDigit c = true := by
  fun_induction digits n with
  | case1 n _ =>
    rw [List.mem_singleton] at member
    exact member ▸ isDigit_digit n
  | case2 n _ ih =>
    rcases List.mem_append.1 member with front | last
    · exact ih front
    · rw [List.mem_singleton] at last
      exact last ▸ isDigit_digit n

theorem digits_ne_nil (n : Nat) : digits n ≠ [] := by
  fun_cases digits n <;> simp

end ProcLang.Decimal
