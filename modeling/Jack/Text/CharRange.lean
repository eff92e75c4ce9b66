namespace Jack.Text

/-- Membership in a set of characters given by ranges of code points in increasing order:
the search ends at the first range that starts after the character. -/
def inRanges (c : Char) : List (Nat × Nat) → Bool
  | [] => false
  | (first, last) :: ranges => first ≤ c.toNat && (c.toNat ≤ last || inRanges c ranges)

theorem inRanges_cons (c : Char) (first last : Nat) (ranges : List (Nat × Nat)) :
    inRanges c ((first, last) :: ranges) =
      (decide (first ≤ c.toNat) && (decide (c.toNat ≤ last) || inRanges c ranges)) := rfl

end Jack.Text
