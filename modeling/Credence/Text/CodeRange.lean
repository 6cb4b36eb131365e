/-!
# Ranges of characters

A class of characters is given by ranges of code points.
-/

namespace Credence.Text

/-- Code points from a first to a last one. -/
abbrev CodeRange := Nat × Nat

/-- Whether a character lies in one of the ranges. -/
def isIn (rs : List CodeRange) (c : Char) : Bool := rs.any fun r => r.1 ≤ c.toNat && c.toNat ≤ r.2

end Credence.Text
