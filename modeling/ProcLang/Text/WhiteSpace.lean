/-!
# White space

The Unicode property `White_Space`: twenty-five code points, given as closed
ranges in increasing order.
-/

set_option autoImplicit false

namespace ProcLang.WhiteSpace

/-- The code points with the property, as closed ranges. -/
def ranges : List (Nat × Nat) :=
  [(0x09, 0x0D), (0x20, 0x20), (0x85, 0x85), (0xA0, 0xA0), (0x1680, 0x1680), (0x2000, 0x200A),
    (0x2028, 0x2029), (0x202F, 0x202F), (0x205F, 0x205F), (0x3000, 0x3000)]

/-- Whether a character has the property `White_Space`. -/
def isWhiteSpace (c : Char) : Bool :=
  ranges.any fun (first, last) => first ≤ c.toNat && c.toNat ≤ last

theorem isWhiteSpace_newline : isWhiteSpace '\n' = true := by decide

/-- The table has twenty-five code points. -/
example : (ranges.map fun (first, last) => last + 1 - first).sum = 25 := by decide

end ProcLang.WhiteSpace
