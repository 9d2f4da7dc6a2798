/-!
# Character classes by ranges

A class of characters is a list of ranges of code points in ascending order. Looking a code point
up stops at the first range that starts above it.
-/

set_option autoImplicit false

namespace StackLang.CharClass

/-- Whether `n` lies in one of the ranges, which ascend. -/
def inRanges : List (Nat × Nat) → Nat → Bool
  | [], _ => false
  | (lo, hi) :: rs, n => if n < lo then false else n ≤ hi || inRanges rs n

/-- A code point found in ascending ranges lies in one of them. -/
theorem exists_of_inRanges {rs : List (Nat × Nat)} {n : Nat} (h : inRanges rs n = true) :
    ∃ r ∈ rs, r.1 ≤ n ∧ n ≤ r.2 := by
  induction rs with
  | nil => simp [inRanges] at h
  | cons r rs ih =>
    simp only [inRanges] at h
    split at h
    case isTrue => simp at h
    case isFalse hlo =>
      simp only [Bool.or_eq_true, decide_eq_true_eq] at h
      rcases h with h | h
      · exact ⟨r, by simp, by omega, h⟩
      · obtain ⟨s, hs, hb⟩ := ih h
        exact ⟨s, by simp [hs], hb⟩

end StackLang.CharClass
