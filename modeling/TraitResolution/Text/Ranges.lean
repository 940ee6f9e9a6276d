/-! # Sets of characters given by ranges of code points -/

namespace TraitResolution.Text

/-- Whether a code point lies in one of some ranges, ends included, that are in increasing order. -/
def inRanges (c : Nat) : List (Nat × Nat) → Bool
  | [] => false
  | (lo, hi) :: rest => if c < lo then false else if c ≤ hi then true else inRanges c rest

end TraitResolution.Text
