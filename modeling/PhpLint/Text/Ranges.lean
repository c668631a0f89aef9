/-!
Character properties given as ascending lists of closed ranges of code points.
-/

namespace PhpLint.Text

def inRanges (ranges : List (Nat × Nat)) (c : Char) : Bool :=
  ranges.any fun r => r.1 ≤ c.toNat && c.toNat ≤ r.2

end PhpLint.Text
