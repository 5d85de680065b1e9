import ApollOS.Kernel.System

namespace ApollOS

open Function

variable {buf : KeyBuffer} {i j : ℕ} {c : UInt8} {k : Kernel}

namespace KeyBuffer

theorem charAt_of_le (h : keyBufferSize ≤ i) : buf.charAt i = 0 := by
  rw [charAt, Vector.getElem?_eq_none (by omega)]
  rfl

theorem charAt_put (hi : i < keyBufferSize) :
    (buf.put i c).charAt j = if j = i then c else buf.charAt j := by
  by_cases h : j = i
  · subst h
    simp [charAt, put, hi]
  · simp [charAt, put, h, Ne.symm h]

@[simp] theorem charAt_empty : empty.charAt i = 0 := by
  by_cases h : i < keyBufferSize
  · simp [charAt, empty, h]
  · exact charAt_of_le (Nat.le_of_not_lt h)

/-- From index `i` on the buffer spells `l`, up to a NUL. -/
def Spells (buf : KeyBuffer) (i : ℕ) (l : List UInt8) : Prop :=
  (∀ j (h : j < l.length), buf.charAt (i + j) = l[j] ∧ l[j] ≠ 0) ∧ buf.charAt (i + l.length) = 0

theorem readLoop_eq {l : List UInt8} (h : Spells buf i l) (n : ℕ) :
    Kernel.readLoop buf n i = l.take n := by
  induction n generalizing i l with
  | zero => rfl
  | succ n ih =>
    obtain ⟨hchars, hend⟩ := h
    cases l with
    | nil =>
      have hzero : buf.charAt i = 0 := hend
      simp [Kernel.readLoop, hzero]
    | cons a l =>
      obtain ⟨ha, hne⟩ := hchars 0 (by simp)
      simp only [Nat.add_zero, List.getElem_cons_zero] at ha hne
      have htail : Spells buf (i + 1) l := by
        refine ⟨fun j hj ↦ ?_, ?_⟩
        · obtain ⟨hj', hne'⟩ := hchars (j + 1) (by simpa using hj)
          rw [← Nat.add_assoc, Nat.add_right_comm] at hj'
          exact ⟨hj', hne'⟩
        · rw [List.length_cons, ← Nat.add_assoc, Nat.add_right_comm] at hend
          exact hend
      rw [Kernel.readLoop, if_neg (by rwa [ha]), ih htail, ha, List.take_succ_cons]

end KeyBuffer

namespace Kernel

theorem pos_lt_iff {p : UInt32} : p < keyBufferSize.toUInt32 ↔ p.toNat < keyBufferSize := by
  rw [UInt32.lt_iff_toNat_lt]
  rfl

theorem pos_pos_iff {p : UInt32} : p > 0 ↔ 0 < p.toNat := UInt32.lt_iff_toNat_lt

theorem pos_succ {p : UInt32} (h : p.toNat < keyBufferSize) : (p + 1).toNat = p.toNat + 1 := by
  rw [UInt32.toNat_add]
  exact Nat.mod_eq_of_lt (Nat.lt_of_le_of_lt h (by decide))

theorem pos_pred {p : UInt32} (h : 0 < p.toNat) : (p - 1).toNat = p.toNat - 1 :=
  UInt32.toNat_sub_of_le _ _ (UInt32.le_iff_toNat_le.mpr h)

@[simp] theorem keys_storeKey : (k.storeKey i c).keys = k.keys.put i c := by
  simp [keys, storeKey, setTerminal]

@[simp] theorem keys_clearBuffer : k.clearBuffer.keys = KeyBuffer.empty := by
  simp [keys, clearBuffer, setTerminal]

section Handlers

theorem enterChar_full (h : keyBufferSize ≤ k.keyboard.keyBufferPos.toNat) :
    k.enterChar c = k := by
  rw [enterChar, if_neg (by rw [pos_lt_iff]; omega)]

theorem enterChar_nul : k.enterChar 0 = k := by
  simp [enterChar]

theorem enterChar_stored (h : k.keyboard.keyBufferPos.toNat < keyBufferSize) (hc : c ≠ 0) :
    (k.enterChar c).keys = k.keys.put k.keyboard.keyBufferPos.toNat c ∧
      (k.enterChar c).keyboard.keyBufferPos.toNat = k.keyboard.keyBufferPos.toNat + 1 ∧
      (k.enterChar c).keyboard.enterPressed = k.keyboard.enterPressed := by
  rw [enterChar, if_pos (pos_lt_iff.mpr h), if_neg hc]
  exact ⟨keys_storeKey, pos_succ h, rfl⟩

theorem handleBackpace_zero (h : k.keyboard.keyBufferPos.toNat = 0) : k.handleBackpace = k := by
  rw [handleBackpace, if_neg (by rw [pos_pos_iff]; omega)]

theorem handleBackpace_erased (h : 0 < k.keyboard.keyBufferPos.toNat) :
    k.handleBackpace.keys = k.keys.put (k.keyboard.keyBufferPos.toNat - 1) 0 ∧
      k.handleBackpace.keyboard.keyBufferPos.toNat = k.keyboard.keyBufferPos.toNat - 1 ∧
      k.handleBackpace.keyboard.enterPressed = k.keyboard.enterPressed := by
  have hpred := pos_pred h
  rw [handleBackpace, if_pos (pos_pos_iff.mpr h)]
  refine ⟨?_, hpred, rfl⟩
  rw [← hpred]
  exact keys_storeKey

theorem terminalRead_eq (nbytes : ℤ) (h : k.keyboard.enterPressed = true) :
    ∃ k', k.terminalRead nbytes = some (k', readLoop k.keys nbytes.toNat 0) ∧
      k'.keys = KeyBuffer.empty ∧ k'.keyboard.keyBufferPos = 0 ∧
      k'.keyboard.enterPressed = false := by
  rw [terminalRead, if_pos h]
  exact ⟨_, rfl, keys_clearBuffer, rfl, rfl⟩

theorem terminalRead_waits {nbytes : ℤ} (h : k.keyboard.enterPressed = false) :
    k.terminalRead nbytes = none := by
  rw [terminalRead, if_neg (by simp [h])]

end Handlers

end Kernel

end ApollOS
