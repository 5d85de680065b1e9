import Mathlib.Data.Nat.Bitwise
import Mathlib.Data.Set.Basic
import Mathlib.Logic.Function.Basic

namespace ApollOS.Words

open Function

abbrev Bytes := UInt32 → UInt8

variable {mem mem' : Bytes} {a b v : UInt32} {m n : ℕ}

/-- The word with these bytes, the lowest one first. -/
def join (b₀ b₁ b₂ b₃ : UInt8) : UInt32 :=
  b₀.toUInt32 ||| b₁.toUInt32 <<< 8 ||| b₂.toUInt32 <<< 16 ||| b₃.toUInt32 <<< 24

@[irreducible] def load (mem : Bytes) (a : UInt32) : UInt32 :=
  join (mem a) (mem (a + 1)) (mem (a + 2)) (mem (a + 3))

@[irreducible] def store (mem : Bytes) (a v : UInt32) : Bytes :=
  update (update (update (update mem a v.toUInt8) (a + 1) (v >>> 8).toUInt8)
    (a + 2) (v >>> 16).toUInt8) (a + 3) (v >>> 24).toUInt8

/-- The `n` addresses from `a` on; after the last address comes the first one. -/
def span (a : UInt32) (n : ℕ) : Set UInt32 := {b | (b - a).toNat < n}

theorem or_shifted {e c k : ℕ} (h : k < 2 ^ e) : k ||| c * 2 ^ e = k + c * 2 ^ e := by
  rw [Nat.or_comm, Nat.mul_comm, ← Nat.two_pow_add_eq_or_of_lt h, Nat.add_comm]

theorem join_bytes :
    join v.toUInt8 (v >>> 8).toUInt8 (v >>> 16).toUInt8 (v >>> 24).toUInt8 = v := by
  have hlt := v.toNat_lt
  have hbyte0 : v.toUInt8.toUInt32.toNat = v.toNat % 256 := by simp
  have hbyte1 : ((v >>> 8).toUInt8.toUInt32 <<< 8).toNat = v.toNat / 256 % 256 * 2 ^ 8 := by
    simp [Nat.shiftRight_eq_div_pow, Nat.shiftLeft_eq]
    omega
  have hbyte2 : ((v >>> 16).toUInt8.toUInt32 <<< 16).toNat = v.toNat / 65536 % 256 * 2 ^ 16 := by
    simp [Nat.shiftRight_eq_div_pow, Nat.shiftLeft_eq]
    omega
  have hbyte3 : ((v >>> 24).toUInt8.toUInt32 <<< 24).toNat =
      v.toNat / 16777216 % 256 * 2 ^ 24 := by
    simp [Nat.shiftRight_eq_div_pow, Nat.shiftLeft_eq]
    omega
  apply UInt32.toNat_inj.mp
  rw [join, UInt32.toNat_or, UInt32.toNat_or, UInt32.toNat_or, hbyte0, hbyte1, hbyte2, hbyte3,
    or_shifted (e := 8) (by omega), or_shifted (e := 16) (by omega),
    or_shifted (e := 24) (by omega)]
  omega

theorem load_store : load (store mem a v) a = v := by
  have h01 : a ≠ a + 1 := by grind
  have h02 : a ≠ a + 2 := by grind
  have h03 : a ≠ a + 3 := by grind
  have h12 : a + 1 ≠ a + 2 := by grind
  have h13 : a + 1 ≠ a + 3 := by grind
  have h23 : a + 2 ≠ a + 3 := by grind
  simp only [load, store, update_self, update_of_ne, ne_eq, h01, h02, h03, h12, h13, h23,
    not_false_eq_true, join_bytes]

theorem load_low : (load mem a).toUInt8 = mem a := by
  have hbyte1 : ((mem (a + 1)).toUInt32 <<< 8).toUInt8 = 0 :=
    UInt8.toNat_inj.mp (by simp [Nat.shiftLeft_eq])
  have hbyte2 : ((mem (a + 2)).toUInt32 <<< 16).toUInt8 = 0 :=
    UInt8.toNat_inj.mp (by simp [Nat.shiftLeft_eq]; omega)
  have hbyte3 : ((mem (a + 3)).toUInt32 <<< 24).toUInt8 = 0 :=
    UInt8.toNat_inj.mp (by simp [Nat.shiftLeft_eq]; omega)
  rw [load, join]
  simp only [UInt32.toUInt8_or, hbyte1, hbyte2, hbyte3]
  simp

theorem mem_span : b ∈ span a n ↔ (b - a).toNat < n := Iff.rfl

theorem span_mono (h : m ≤ n) : span a m ⊆ span a n := fun _ hb ↦ lt_of_lt_of_le hb h

theorem span_left (hn : n ≤ 2 ^ 32) (h : m ≤ n) : span (a + (n - m).toUInt32) m ⊆ span a n := by
  intro b hb
  rw [mem_span, UInt32.toNat_sub] at hb ⊢
  rw [UInt32.toNat_add, Nat.toUInt32_eq, UInt32.toNat_ofNat'] at hb
  have := b.toNat_lt
  have := a.toNat_lt
  omega

theorem not_mem_span (h : m + n ≤ 2 ^ 32) (hm : b ∈ span a m) :
    b ∉ span (a + m.toUInt32) n := by
  intro hn
  rw [mem_span, UInt32.toNat_sub] at hm hn
  rw [UInt32.toNat_add, Nat.toUInt32_eq, UInt32.toNat_ofNat'] at hn
  have := b.toNat_lt
  have := a.toNat_lt
  omega

theorem load_congr (h : ∀ b ∈ span a 4, mem' b = mem b) : load mem' a = load mem a := by
  have hbyte (i : UInt32) (hi : i.toNat < 4) : mem' (a + i) = mem (a + i) := by
    refine h _ ?_
    have hsub : a + i - a = i := by grind
    rw [mem_span, hsub]
    exact hi
  have hzero := hbyte 0 (by decide)
  rw [UInt32.add_zero] at hzero
  rw [load, load, hzero, hbyte 1 (by decide), hbyte 2 (by decide), hbyte 3 (by decide)]

theorem store_frame (h : b ∉ span a 4) : store mem a v b = mem b := by
  have hne (i : UInt32) (hi : i.toNat < 4) : b ≠ a + i := by
    rintro rfl
    have hsub : a + i - a = i := by grind
    rw [mem_span, hsub] at h
    exact h hi
  have hzero := hne 0 (by decide)
  rw [UInt32.add_zero] at hzero
  rw [store, update_of_ne (hne 3 (by decide)), update_of_ne (hne 2 (by decide)),
    update_of_ne (hne 1 (by decide)), update_of_ne hzero]

end ApollOS.Words
