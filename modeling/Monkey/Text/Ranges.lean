/-!
  Monkey/Text/Ranges.lean
  =======================
  **Sets of characters as ranges.**

  A property of characters is a list of closed ranges of code points.  A
  character has the property if one of the ranges holds it (`contains`).
-/
namespace Monkey.Text

/-- Closed ranges of code points, each by its first and its last. -/
abbrev Ranges : Type := List (Nat × Nat)

namespace Ranges

/-- Whether one of the ranges holds a character. -/
def contains (rs : Ranges) (c : Char) : Bool :=
  rs.any fun r => r.1 ≤ c.toNat && c.toNat ≤ r.2

end Ranges

end Monkey.Text
