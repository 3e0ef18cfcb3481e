/-! Sets of characters written as inclusive ranges of code points. -/

namespace LinearSSA.Text

/-- The first and the last code point of a range. -/
abbrev CodeRange := Nat × Nat

def inRanges (ranges : List CodeRange) (c : Char) : Bool :=
  ranges.any fun (first, last) => first ≤ c.toNat && c.toNat ≤ last

end LinearSSA.Text
