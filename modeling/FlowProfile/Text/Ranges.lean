/-! Classes of characters, given by ranges of their numbers. -/

namespace FlowProfile.Text

/-- The first and the last number of each range. -/
abbrev Ranges := List (Nat × Nat)

namespace Ranges

/-- Does each range begin above the last, and the first of them at `bound` or above? -/
def riseFrom (bound : Nat) : Ranges → Bool
  | [] => true
  | (first, last) :: rest => bound ≤ first && first ≤ last && riseFrom (last + 1) rest

/-- In ranges that rise, none after the first that begins too late can hold the character. -/
def has (rs : Ranges) (c : Char) : Bool :=
  (rs.takeWhile fun r => r.1 ≤ c.toNat).any fun r => c.toNat ≤ r.2

theorem le_of_riseFrom {bound : Nat} {rs : Ranges} (h : riseFrom bound rs = true)
    {r : Nat × Nat} (hr : r ∈ rs) : bound ≤ r.1 := by
  induction rs generalizing bound with
  | nil => cases hr
  | cons s rs ih =>
    simp only [riseFrom, Bool.and_eq_true, decide_eq_true_eq] at h
    rcases List.mem_cons.1 hr with rfl | hr
    · exact h.1.1
    · have := ih h.2 hr
      omega

theorem has_iff {bound : Nat} {rs : Ranges} (h : riseFrom bound rs = true) (c : Char) :
    rs.has c = true ↔ ∃ r ∈ rs, r.1 ≤ c.toNat ∧ c.toNat ≤ r.2 := by
  induction rs generalizing bound with
  | nil => simp [has]
  | cons s rs ih =>
    simp only [riseFrom, Bool.and_eq_true, decide_eq_true_eq] at h
    by_cases hs : s.1 ≤ c.toNat
    · have := ih h.2
      simp_all [has]
    · have late : ∀ r ∈ rs, ¬ r.1 ≤ c.toNat := fun r hr => by
        have := le_of_riseFrom h.2 hr
        omega
      simp only [has, hs, List.takeWhile_cons, decide_false, Bool.false_eq_true, if_false,
        List.any_nil, List.mem_cons, exists_eq_or_imp, false_and, false_or, false_iff,
        not_exists, not_and]
      exact fun r hr first => absurd first (late r hr)

end Ranges

end FlowProfile.Text
