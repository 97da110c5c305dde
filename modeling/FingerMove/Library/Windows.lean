import Mathlib.Algebra.BigOperators.Group.List.Basic
import Mathlib.Algebra.Order.BigOperators.Group.List
import Mathlib.Algebra.Ring.Nat

namespace FingerMove.Windows

/-- Where the window `i` starts, of windows of the lengths `rs` one after another. -/
def start (rs : List ℕ) (i : ℕ) : ℕ := (rs.take i).sum

def Owns (rs : List ℕ) (i k : ℕ) : Prop := start rs i ≤ k ∧ k < start rs (i + 1)

variable {rs : List ℕ} {i j k : ℕ}

theorem start_succ (rs : List ℕ) (i : ℕ) : start rs (i + 1) = start rs i + rs[i]?.getD 0 := by
  rw [start, List.take_add_one, List.sum_append, start]
  cases rs[i]? <;> simp

theorem start_mono (rs : List ℕ) : Monotone (start rs) := by
  apply monotone_nat_of_le_succ
  intro i
  rw [start_succ]
  exact Nat.le_add_right _ _

theorem Owns.unique (hi : Owns rs i k) (hj : Owns rs j k) : i = j := by
  apply Nat.le_antisymm
  · by_contra hlt
    have hle := start_mono rs (not_le.mp hlt)
    exact absurd (hle.trans hi.1) (not_le.mpr hj.2)
  · by_contra hlt
    have hle := start_mono rs (not_le.mp hlt)
    exact absurd (hle.trans hj.1) (not_le.mpr hi.2)

theorem exists_owner (h : k < rs.sum) : ∃ i < rs.length, Owns rs i k := by
  induction rs generalizing k with
  | nil => exact absurd h (Nat.not_lt_zero k)
  | cons r rs ih =>
    rw [List.sum_cons] at h
    by_cases hk : k < r
    · exact ⟨0, Nat.succ_pos _, Nat.zero_le k, by simpa [start] using hk⟩
    · obtain ⟨i, hi, hle, hlt⟩ := ih (show k - r < rs.sum by omega)
      simp only [start] at hle hlt
      refine ⟨i + 1, Nat.succ_lt_succ hi, ?_, ?_⟩
      · rw [start, List.take_succ_cons, List.sum_cons]
        omega
      · rw [start, List.take_succ_cons, List.sum_cons]
        omega

theorem existsUnique_owner (h : k < rs.sum) : ∃! i, Owns rs i k := by
  obtain ⟨i, -, hi⟩ := exists_owner h
  exact ⟨i, hi, fun j hj ↦ hj.unique hi⟩

end FingerMove.Windows
