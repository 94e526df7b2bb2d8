/-!
# Blank characters

The characters with the Unicode property `White_Space`: 25 code points, in ten ranges.
Formulas may contain them anywhere between tokens, and a text made of nothing else counts as
empty where an identifier is asked for.

The table is wider than `Char.isWhitespace`, which knows four ASCII characters.
-/

namespace RulePaths

namespace Blank

/-- The code points with the property `White_Space`, as closed ranges in ascending order. -/
def ranges : List (Nat × Nat) :=
  [(0x09, 0x0D), (0x20, 0x20), (0x85, 0x85), (0xA0, 0xA0), (0x1680, 0x1680),
   (0x2000, 0x200A), (0x2028, 0x2029), (0x202F, 0x202F), (0x205F, 0x205F), (0x3000, 0x3000)]

/-- Whether a character is blank. -/
def isBlank (c : Char) : Bool :=
  ranges.any fun r => r.1 ≤ c.toNat && c.toNat ≤ r.2

/-- Whether a text has no character that is not blank. -/
def isBlankText (s : String) : Bool :=
  s.toList.all isBlank

end Blank

end RulePaths
