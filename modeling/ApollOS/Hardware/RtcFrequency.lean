import ApollOS.Kernel.Descriptor
import Mathlib.Tactic.IntervalCases

namespace ApollOS

variable {d : Devices} {buf : ℕ → UInt8} {nbytes : ℤ} {freq : Int32}

inductive RtcFreq
  | f2Hz | f4Hz | f8Hz | f16Hz | f32Hz | f64Hz | f128Hz | f256Hz | f512Hz | f1024Hz | f2048Hz
  | f4096Hz | f8192Hz | f0Hz
  deriving DecidableEq, Repr

namespace RtcFreq

def rate : RtcFreq → UInt8
  | f2Hz => 15
  | f4Hz => 14
  | f8Hz => 13
  | f16Hz => 12
  | f32Hz => 11
  | f64Hz => 10
  | f128Hz => 9
  | f256Hz => 8
  | f512Hz => 7
  | f1024Hz => 6
  | f2048Hz => 5
  | f4096Hz => 4
  | f8192Hz => 3
  | f0Hz => 0

/-- The frequency at which the clock interrupts when a rate is selected; rate 0 stops it. -/
def hertz (f : RtcFreq) : ℕ := if f.rate = 0 then 0 else 32768 >>> (f.rate.toNat - 1)

example : f8192Hz.hertz = 8192 ∧ f2Hz.hertz = 2 := by decide

theorem rate_and (f : RtcFreq) : f.rate &&& 0xF0 = 0 ∧ f.rate &&& 0x0F = f.rate := by
  cases f <;> decide

theorem exists_hertz {k : ℕ} (hlow : 1 ≤ k) (hhigh : k ≤ 13) : ∃ f : RtcFreq,
    f.hertz = 2 ^ k ∧ f.rate = (Int8.ofInt (16 - (k : ℤ))).toUInt8 := by
  interval_cases k
  · exact ⟨f2Hz, by decide⟩
  · exact ⟨f4Hz, by decide⟩
  · exact ⟨f8Hz, by decide⟩
  · exact ⟨f16Hz, by decide⟩
  · exact ⟨f32Hz, by decide⟩
  · exact ⟨f64Hz, by decide⟩
  · exact ⟨f128Hz, by decide⟩
  · exact ⟨f256Hz, by decide⟩
  · exact ⟨f512Hz, by decide⟩
  · exact ⟨f1024Hz, by decide⟩
  · exact ⟨f2048Hz, by decide⟩
  · exact ⟨f4096Hz, by decide⟩
  · exact ⟨f8192Hz, by decide⟩

theorem hertz_eq (f : RtcFreq) : f.hertz = 0 ∨ ∃ k, 1 ≤ k ∧ k ≤ 13 ∧ f.hertz = 2 ^ k := by
  by_cases hzero : f.rate = 0
  · exact .inl (if_pos hzero)
  · refine .inr ⟨16 - f.rate.toNat, ?_⟩
    revert hzero
    cases f <;> decide

end RtcFreq

section Halving

theorem one_lt_iff : freq > 1 ↔ 1 < freq.toInt := by
  have hone : (1 : Int32).toInt = 1 := by decide
  rw [← hone]
  exact Int32.lt_iff_toInt_lt

theorem toInt_halved : (freq >>> 1).toInt = freq.toInt / 2 := by
  have hone : (1 : Int32).toBitVec.smod 32 = 1#32 := by decide
  rw [← Int32.toInt_toBitVec, Int32.toBitVec_shiftRight, hone, BitVec.sshiftRight_eq',
    BitVec.toInt_sshiftRight]
  exact Int.shiftRight_eq_div_pow freq.toInt 1

theorem halve_eq {n : ℕ} {c : ℤ} (hpos : 0 < freq.toInt) (hlt : freq.toInt < 2 ^ n) :
    rtcRate.halve n freq (Int8.ofInt c) = Int8.ofInt (c - Nat.log2 freq.toInt.toNat) := by
  induction n generalizing freq c with
  | zero =>
    rw [pow_zero] at hlt
    omega
  | succ n ih =>
    rw [rtcRate.halve, Nat.log2_def]
    by_cases hmore : freq > 1
    · have hlarge := one_lt_iff.mp hmore
      have htwo : 2 ≤ freq.toInt.toNat := by omega
      have hhalf : freq.toInt.toNat / 2 = (freq >>> 1).toInt.toNat := by
        rw [toInt_halved]
        omega
      have hpos' : 0 < (freq >>> 1).toInt := by
        rw [toInt_halved]
        omega
      have hlt' : (freq >>> 1).toInt < 2 ^ n := by
        rw [toInt_halved]
        rw [pow_succ] at hlt
        omega
      have hless : Int8.ofInt c - 1 = Int8.ofInt (c - 1) := (Int8.ofInt_sub c 1).symm
      rw [if_pos hmore, if_pos htwo, hhalf, hless, ih hpos' hlt', Nat.cast_succ]
      congr 1
      omega
    · have hsmall : ¬ 2 ≤ freq.toInt.toNat := by
        have hle := mt one_lt_iff.mpr hmore
        omega
      rw [if_neg hmore, if_neg hsmall, Nat.cast_zero, sub_zero]

theorem rtcRate_zero : rtcRate 0 = 0 := by decide

theorem rtcRate_of_pos (h : 0 < freq.toInt) :
    rtcRate freq = Int8.ofInt (16 - (Nat.log2 freq.toInt.toNat : ℤ)) := by
  have hne : freq ≠ 0 := by
    rintro rfl
    exact absurd h (by decide)
  have hlt : freq.toInt < 2 ^ 32 := freq.toInt_lt.trans (by decide)
  have hrate : (16 : Int8) = Int8.ofInt 16 := by decide
  rw [rtcRate, if_neg hne, hrate, halve_eq h hlt]

theorem rtcRate_of_neg (h : freq.toInt < 0) : rtcRate freq = 16 := by
  have hne : freq ≠ 0 := by
    rintro rfl
    exact absurd h (by decide)
  have hsmall : ¬ freq > 1 := fun hmore ↦ by
    have hlarge := one_lt_iff.mp hmore
    omega
  rw [rtcRate, if_neg hne, rtcRate.halve, if_neg hsmall]

end Halving

theorem uint8_or_and (x y z : UInt8) : (x ||| y) &&& z = x &&& z ||| y &&& z := by
  refine UInt8.toBitVec_inj.mp (BitVec.eq_of_getLsbD_eq fun i _ ↦ ?_)
  simp only [UInt8.toBitVec_and, UInt8.toBitVec_or, BitVec.getLsbD_and, BitVec.getLsbD_or,
    Bool.and_or_distrib_right]

theorem rate_stored (a : UInt8) (f : RtcFreq) :
    (a &&& rtcSetRate ||| f.rate) &&& 0xF0 = a &&& 0xF0 ∧
      (a &&& rtcSetRate ||| f.rate) &&& 0x0F = f.rate := by
  have hhigh : rtcSetRate &&& 0xF0 = 0xF0 := by decide
  have hlow : rtcSetRate &&& 0x0F = 0 := by decide
  rw [uint8_or_and, uint8_or_and, UInt8.and_assoc, UInt8.and_assoc, hhigh, hlow, f.rate_and.1,
    f.rate_and.2, UInt8.and_zero, UInt8.or_zero, UInt8.zero_or]
  exact ⟨rfl, rfl⟩

/-- What a write to the clock is to do with register A: the write is turned down, or the rate
listed for the frequency is set. -/
def RateSet (freq : ℤ) (a a' : UInt8) (r : ℤ) : Prop :=
  (r = -1 ∧ a' = a) ∨
    ∃ f : RtcFreq, (f.hertz : ℤ) = freq ∧ a' &&& 0xF0 = a &&& 0xF0 ∧ a' &&& 0x0F = f.rate

theorem rtcWrite_set {f : RtcFreq} (hn : ¬ nbytes < 4)
    (hf : (f.hertz : ℤ) = (le32 buf 0).toInt32.toInt)
    (hrate : (rtcRate (le32 buf 0).toInt32).toUInt8 = f.rate) :
    RateSet (le32 buf 0).toInt32.toInt d.rtcRegA (rtcWrite d buf nbytes).1.rtcRegA
      (rtcWrite d buf nbytes).2 := by
  rw [rtcWrite, if_neg hn]
  dsimp only
  rw [hrate]
  exact .inr ⟨f, hf, rate_stored _ f⟩

/-- Frequency 0 and the powers of two from 2 to 8192. -/
def Supported (freq : ℤ) : Prop := freq = 0 ∨ ∃ k : ℕ, 1 ≤ k ∧ k ≤ 13 ∧ freq = 2 ^ k

/-- `rtc_write` does what is expected of it exactly when the frequency is one of those listed
or the buffer is too short to hold one: no frequency is turned down. -/
theorem rtcWrite_right_iff (d : Devices) (buf : ℕ → UInt8) (nbytes : ℤ) :
    RateSet (le32 buf 0).toInt32.toInt d.rtcRegA (rtcWrite d buf nbytes).1.rtcRegA
      (rtcWrite d buf nbytes).2 ↔ nbytes < 4 ∨ Supported (le32 buf 0).toInt32.toInt := by
  by_cases hn : nbytes < 4
  · rw [rtcWrite, if_pos hn]
    exact iff_of_true (.inl ⟨rfl, rfl⟩) (.inl hn)
  rw [or_iff_right hn]
  constructor
  · rintro (⟨hr, -⟩ | ⟨f, hf, -⟩)
    · rw [rtcWrite, if_neg hn] at hr
      have hzero : (0 : ℤ) = -1 := hr
      exact absurd hzero (by decide)
    · rw [← hf]
      rcases f.hertz_eq with hzero | ⟨k, hlow, hhigh, hk⟩
      · exact .inl (by rw [hzero, Nat.cast_zero])
      · exact .inr ⟨k, hlow, hhigh, by rw [hk, Nat.cast_pow, Nat.cast_ofNat]⟩
  · rintro (hzero | ⟨k, hlow, hhigh, hk⟩)
    · have hfreq : (le32 buf 0).toInt32 = 0 := Int32.toInt_inj.mp hzero
      refine rtcWrite_set (f := .f0Hz) hn ?_ ?_
      · rw [hfreq]
        rfl
      · rw [hfreq, rtcRate_zero]
        rfl
    · obtain ⟨f, hf, hrate⟩ := RtcFreq.exists_hertz hlow hhigh
      have hpos : 0 < (le32 buf 0).toInt32.toInt := by
        rw [hk]
        positivity
      have hlog : (2 ^ k : ℤ).toNat = 2 ^ k := rfl
      refine rtcWrite_set (f := f) hn ?_ ?_
      · rw [hf, hk, Nat.cast_pow, Nat.cast_ofNat]
      · rw [rtcRate_of_pos hpos, hk, hlog, Nat.log2_two_pow, hrate]

/-- A frequency of one hertz, or a negative one, is rate 16: the write sets a bit of the divider
and clears the rate. -/
theorem rtcWrite_divider (hn : ¬ nbytes < 4)
    (h : (le32 buf 0).toInt32.toInt < 0 ∨ (le32 buf 0).toInt32.toInt = 1) :
    rtcWrite d buf nbytes = ({ d with rtcRegA := d.rtcRegA &&& rtcSetRate ||| 0x10 }, 0) := by
  have hrate : rtcRate (le32 buf 0).toInt32 = 16 := by
    rcases h with hneg | hone
    · exact rtcRate_of_neg hneg
    · rw [rtcRate_of_pos (by omega), hone]
      decide
  rw [rtcWrite, if_neg hn, hrate]
  rfl

def oneHertz : ℕ → UInt8 := cstr [1, 0, 0, 0]

theorem rtcWrite_oneHertz : (le32 oneHertz 0).toInt32.toInt = 1 ∧
    rtcWrite ⟨0xFB, 0xFF, 0x26, 0, false⟩ oneHertz 4 = (⟨0xFB, 0xFF, 0x30, 0, false⟩, 0) ∧
    ¬ RateSet 1 0x26 0x30 0 := by
  have hone : (le32 oneHertz 0).toInt32.toInt = 1 := by decide
  refine ⟨hone, ?_, ?_⟩
  · rw [rtcWrite_divider (by decide) (.inr hone)]
    rfl
  · rintro (⟨hr, -⟩ | ⟨f, -, hkept, -⟩)
    · exact absurd hr (by decide)
    · exact absurd hkept (by decide)

end ApollOS
