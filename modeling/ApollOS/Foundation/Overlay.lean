import Mathlib.Logic.Function.Basic
import Mathlib.Data.Int.Cast.Basic
import Mathlib.Order.Basic

namespace ApollOS

open Function

variable {β : Type*} {m : ℤ → β} {base a : ℤ} {n k : ℕ} {f : ℕ → β}

/-- A memory with the cells from `base` on replaced by the first `n` of `f`. -/
def overlay (m : ℤ → β) (base : ℤ) (n : ℕ) (f : ℕ → β) : ℤ → β :=
  fun a ↦ if base ≤ a ∧ a < base + n then f (a - base).toNat else m a

theorem overlay_zero : overlay m base 0 f = m := by
  funext a
  exact if_neg (by omega)

theorem overlay_inside (hk : k < n) : overlay m base n f (base + k) = f k := by
  have hoff : (base + k - base).toNat = k := by omega
  rw [overlay, if_pos (by omega), hoff]

theorem overlay_outside (h : ¬ (base ≤ a ∧ a < base + n)) : overlay m base n f a = m a := if_neg h

theorem update_overlay :
    update (overlay m base n f) (base + n) (f n) = overlay m base (n + 1) f := by
  funext a
  rw [update_apply]
  by_cases ha : a = base + n
  · rw [if_pos ha, ha, overlay_inside (Nat.lt_succ_self n)]
  · rw [if_neg ha]
    have hiff : base ≤ a ∧ a < base + (n + 1 : ℕ) ↔ base ≤ a ∧ a < base + n := by omega
    simp only [overlay, hiff]

theorem update_overlay_below :
    update (overlay m (base + 1) n fun k ↦ f (k + 1)) base (f 0) = overlay m base (n + 1) f := by
  funext a
  rw [update_apply]
  by_cases ha : a = base
  · subst ha
    have hin : overlay m a (n + 1) f (a + (0 : ℕ)) = f 0 := overlay_inside (Nat.succ_pos n)
    have hzero : a + (0 : ℕ) = a := by omega
    rw [hzero] at hin
    rw [if_pos rfl, hin]
  · rw [if_neg ha]
    have hiff : base + 1 ≤ a ∧ a < base + 1 + n ↔ base ≤ a ∧ a < base + (n + 1 : ℕ) := by omega
    unfold overlay
    split_ifs with hin hin' hin'
    · have hoff : (a - base).toNat = (a - (base + 1)).toNat + 1 := by omega
      rw [hoff]
    · exact absurd (hiff.mp hin) hin'
    · exact absurd (hiff.mpr hin') hin
    · rfl

end ApollOS
