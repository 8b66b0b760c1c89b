/-! White space, and the words that it separates. -/

namespace FlowProfile.Text

/-- The characters with the property White_Space. -/
def isBlank (c : Char) : Bool :=
  let n := c.toNat
  (0x09 ≤ n && n ≤ 0x0D) || n == 0x20 || n == 0x85 || n == 0xA0 || n == 0x1680 ||
    (0x2000 ≤ n && n ≤ 0x200A) || n == 0x2028 || n == 0x2029 || n == 0x202F ||
    n == 0x205F || n == 0x3000

theorem isBlank_of_isWhitespace {c : Char} (h : c.isWhitespace = true) : isBlank c = true := by
  simp only [Char.isWhitespace, Bool.or_eq_true, decide_eq_true_eq] at h
  rcases h with ((rfl | rfl) | rfl) | rfl <;> decide

/-- The longest runs of characters that are not in the class, in order. -/
def runs (separates : Char → Bool) (cs : List Char) : List (List Char) :=
  (cs.splitOnP separates).filter (· ≠ [])

/-- The longest runs of characters that are not white space. -/
def words (s : String) : List String :=
  (runs isBlank s.toList).map String.ofList

end FlowProfile.Text
