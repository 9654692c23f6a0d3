/-!
Sets of characters given by a table: closed intervals of code points in ascending order. A look-up
stops at the first interval that begins above the code point.
-/
set_option autoImplicit false

namespace Stencil.Text

/-- Membership in an ascending table of closed intervals. -/
def inRanges : List (Nat × Nat) → Nat → Bool
  | [], _ => false
  | (low, high) :: rest, n => if n < low then false else if n ≤ high then true else inRanges rest n

theorem exists_of_inRanges {table : List (Nat × Nat)} {n : Nat} (h : inRanges table n = true) :
    ∃ r ∈ table, r.1 ≤ n ∧ n ≤ r.2 := by
  induction table with
  | nil => simp [inRanges] at h
  | cons r rest ih =>
    obtain ⟨low, high⟩ := r
    simp only [inRanges] at h
    split at h
    · simp at h
    · split at h
      · exact ⟨(low, high), by simp, by omega, by assumption⟩
      · obtain ⟨r, hr, hn⟩ := ih h
        exact ⟨r, by simp [hr], hn⟩

end Stencil.Text
