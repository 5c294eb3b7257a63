/-!
# Alignment

Sections start at multiples of a power of two, one for the file and one for memory. `alignUp` rounds
up to such a multiple; `le_alignUp`, `dvd_alignUp` and `alignUp_le` say that its result is the least
multiple that is not below its argument.
-/

namespace Rebase.Pe

/-- The least multiple of `step` that is not below `n`. -/
def alignUp (n step : Nat) : Nat := (n + step - 1) / step * step

/-- What the offset of a section in the file is a multiple of. -/
def fileAlignment : Nat := 0x200

/-- What the address of a section in memory is a multiple of. -/
def sectionAlignment : Nat := 0x1000

theorem dvd_alignUp (n step : Nat) : step ∣ alignUp n step := Nat.dvd_mul_left _ _

theorem le_alignUp (n : Nat) {step : Nat} (hstep : 0 < step) : n ≤ alignUp n step := by
  have hdiv := Nat.div_add_mod (n + step - 1) step
  have hmod := Nat.mod_lt (n + step - 1) hstep
  rw [Nat.mul_comm] at hdiv
  unfold alignUp
  omega

theorem alignUp_le {n m step : Nat} (hstep : 0 < step) (hdvd : step ∣ m) (h : n ≤ m) :
    alignUp n step ≤ m := by
  obtain ⟨k, rfl⟩ := hdvd
  have hlt : (n + step - 1) / step < k + 1 := by
    rw [Nat.div_lt_iff_lt_mul hstep, Nat.succ_mul, Nat.mul_comm k]
    omega
  unfold alignUp
  rw [Nat.mul_comm step k]
  exact Nat.mul_le_mul_right _ (Nat.le_of_lt_succ hlt)

end Rebase.Pe
