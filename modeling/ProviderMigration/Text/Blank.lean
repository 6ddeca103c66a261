/-!
# Blank characters

The gaps between the words of a configuration line are runs of blank characters.
A character is blank exactly when it has the Unicode property `White_Space`, so
a line may hold no-break or ideographic spaces wherever it may hold a space.
-/

namespace ProviderMigration.Text

/-- The code points with the property `White_Space`, as closed ranges in
increasing order. -/
def blankRanges : List (Nat × Nat) :=
  [(0x09, 0x0D), (0x20, 0x20), (0x85, 0x85), (0xA0, 0xA0), (0x1680, 0x1680),
   (0x2000, 0x200A), (0x2028, 0x2029), (0x202F, 0x202F), (0x205F, 0x205F),
   (0x3000, 0x3000)]

/-- Membership in `White_Space`. -/
def isBlank (c : Char) : Bool :=
  blankRanges.any fun range => range.1 ≤ c.toNat && c.toNat ≤ range.2

end ProviderMigration.Text
