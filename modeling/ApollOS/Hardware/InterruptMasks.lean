import ApollOS.Foundation.LastWrite
import ApollOS.Kernel.Pic

namespace ApollOS

open Function LastWrite

variable {s : Pics} {d : Devices} {c : IrqCall} {calls : List IrqCall} {irqNum : UInt32}
  {master slave : Chip} {n i line : ℕ}

namespace Devices

/-- Whether the kernel's masks let an interrupt line through. -/
def allowed (d : Devices) (line : ℕ) : Bool :=
  if line < 8 then !d.masterMask.toNat.testBit line else !d.slaveMask.toNat.testBit (line - 8)

theorem testBit_enableMask : ∀ n < 8, ∀ i < 8,
    ((fun mask : UInt8 ↦ (mask <<< 1) + 1)^[n] 0xFE).toNat.testBit i = !decide (i = n) := by
  decide

theorem testBit_disableMask : ∀ n < 8, ∀ i < 8,
    ((fun mask : UInt8 ↦ mask <<< 1)^[n] 0x01).toNat.testBit i = decide (i = n) := by
  decide

/-- What enabling or disabling line `n` makes of the kernel's masks. -/
inductive Masking (d : Devices) (v : Bool) : ℕ → Devices → Prop
  | master {n : ℕ} {mask : UInt8} : n < 8 →
    (∀ i < 8, mask.toNat.testBit i = if i = n then !v else d.masterMask.toNat.testBit i) →
    Masking d v n { d with masterMask := mask }
  | slave {n : ℕ} {mask : UInt8} : n < 8 →
    (∀ i < 8, mask.toNat.testBit i = if i = n then !v else d.slaveMask.toNat.testBit i) →
    Masking d v (n + 8) { d with slaveMask := mask }
  | none {n : ℕ} : 15 < n → Masking d v n d

variable {d' : Devices} {v : Bool}

theorem masking_enableIrq (d : Devices) (n : ℕ) : Masking d true n (d.enableIrq n) := by
  have hbit (m : UInt8) {k : ℕ} (hk : k < 8) (j : ℕ) (hj : j < 8) :
      (m &&& (fun mask : UInt8 ↦ (mask <<< 1) + 1)^[k] 0xFE).toNat.testBit j =
        if j = k then !true else m.toNat.testBit j := by
    rw [UInt8.toNat_and, Nat.testBit_and, testBit_enableMask k hk j hj]
    by_cases he : j = k <;> simp [he]
  rw [enableIrq]
  split_ifs with hmaster hslave
  · exact .master (by omega) (hbit d.masterMask (by omega))
  · obtain ⟨k, rfl⟩ : ∃ k, n = k + 8 := ⟨n - 8, by omega⟩
    exact .slave (by omega) (hbit d.slaveMask (by omega))
  · exact .none (by omega)

theorem masking_disableIrq (d : Devices) (n : ℕ) : Masking d false n (d.disableIrq n) := by
  have hbit (m : UInt8) {k : ℕ} (hk : k < 8) (j : ℕ) (hj : j < 8) :
      (m ||| (fun mask : UInt8 ↦ mask <<< 1)^[k] 0x01).toNat.testBit j =
        if j = k then !false else m.toNat.testBit j := by
    rw [UInt8.toNat_or, Nat.testBit_or, testBit_disableMask k hk j hj]
    by_cases he : j = k <;> simp [he]
  rw [disableIrq]
  split_ifs with hmaster hslave
  · exact .master (by omega) (hbit d.masterMask (by omega))
  · obtain ⟨k, rfl⟩ : ∃ k, n = k + 8 := ⟨n - 8, by omega⟩
    exact .slave (by omega) (hbit d.slaveMask (by omega))
  · exact .none (by omega)

theorem Masking.allowed (h : Masking d v n d') (hi : i < 16) :
    d'.allowed i = update d.allowed n v i := by
  rw [update_apply, Devices.allowed, Devices.allowed]
  cases h with
  | master hn hmask =>
    by_cases hlow : i < 8
    · rw [if_pos hlow, if_pos hlow, hmask i hlow]
      by_cases he : i = n <;> simp [he]
    · have hne : i ≠ n := by omega
      rw [if_neg hlow, if_neg hlow, if_neg hne]
  | @slave k mask hk hmask =>
    by_cases hlow : i < 8
    · have hne : i ≠ k + 8 := by omega
      rw [if_pos hlow, if_pos hlow, if_neg hne]
    · rw [if_neg hlow, if_neg hlow, hmask (i - 8) (by omega)]
      by_cases he : i = k + 8
      · subst he
        simp
      · have hne : i - 8 ≠ k := by omega
        simp [he, hne]
  | none hn =>
    have hne : i ≠ n := by omega
    rw [if_neg hne]

theorem Masking.slaveMask (h : Masking d v n d') (hn : ¬ (8 ≤ n ∧ n ≤ 15)) :
    d'.slaveMask = d.slaveMask := by
  cases h with
  | master hlt hmask => rfl
  | slave hlt hmask => exact absurd ⟨Nat.le_add_left _ _, by omega⟩ hn
  | none hlt => rfl

theorem Masking.masterMask (h : Masking d v n d') (hn : 7 < n) :
    d'.masterMask = d.masterMask := by
  cases h with
  | master hlt hmask => omega
  | slave hlt hmask => rfl
  | none hlt => rfl

end Devices

namespace IrqCall

def OnSlave (c : IrqCall) : Prop := 8 ≤ c.irqNum.toNat ∧ c.irqNum.toNat ≤ 15

instance : Decidable c.OnSlave := inferInstanceAs (Decidable (_ ∧ _))

/-- What a call does to the kernel's masks. -/
def masks (d : Devices) : IrqCall → Devices
  | enableIrq irqNum => d.enableIrq irqNum.toNat
  | disableIrq irqNum => d.disableIrq irqNum.toNat

/-- The line a call is about, and whether it is to be let through. -/
def write : IrqCall → ℕ × Bool
  | enableIrq irqNum => (irqNum.toNat, true)
  | disableIrq irqNum => (irqNum.toNat, false)

theorem call_eq : call s c = s.sendMask (c.masks s.devices) c.irqNum := by
  cases c <;> rfl

theorem masking_masks (c : IrqCall) (d : Devices) :
    d.Masking c.write.2 c.irqNum.toNat (c.masks d) := by
  cases c with
  | enableIrq irqNum => exact Devices.masking_enableIrq d _
  | disableIrq irqNum => exact Devices.masking_disableIrq d _

theorem write_fst (c : IrqCall) : c.write.1 = c.irqNum.toNat := by
  cases c <;> rfl

end IrqCall

namespace Pics

theorem i8259Init_eq : s.i8259Init =
    { devices := s.devices.enableIrq 2
      master := { imr := (s.devices.enableIrq 2).masterMask, icws := 0 }
      slave := { imr := 0, icws := 0 } } := rfl

/-- The chips expect no initialization word, and the first one has the mask that the kernel
keeps for it. -/
structure Ready (s : Pics) : Prop where
  masterWords : s.master.icws = 0
  slaveWords : s.slave.icws = 0
  master : s.master.imr = s.devices.masterMask

theorem sendMask_eq (h : s.Ready) : s.sendMask d irqNum =
    { devices := d
      master := if irqNum.toNat ≤ 7 then { s.master with imr := d.masterMask } else s.master
      slave := if 8 ≤ irqNum.toNat ∧ irqNum.toNat ≤ 15 then { s.slave with imr := d.slaveMask }
        else s.slave } := by
  have hseven : irqNum ≤ 7 ↔ irqNum.toNat ≤ 7 := UInt32.le_iff_toNat_le
  have hfifteen : irqNum ≤ 15 ↔ irqNum.toNat ≤ 15 := UInt32.le_iff_toNat_le
  unfold sendMask
  simp only [hseven, hfifteen]
  by_cases hlow : irqNum.toNat ≤ 7
  · have hhigh : ¬ (8 ≤ irqNum.toNat ∧ irqNum.toNat ≤ 15) := by omega
    simp [hlow, hhigh, outb, Chip.dataPort, h.masterWords, master8259Port]
  · by_cases hslave : irqNum.toNat ≤ 15
    · have hboth : 8 ≤ irqNum.toNat ∧ irqNum.toNat ≤ 15 := by omega
      simp [hlow, hslave, hboth, outb, Chip.dataPort, h.slaveWords, master8259Port, slave8259Port]
    · simp [hlow, hslave]

/-- Bit 4 is not set in an end of interrupt: no chip takes it for an initialization. -/
theorem sendEoi_eq : s.sendEoi irqNum = s := by
  have hword : ∀ n : Fin 8, (eoi ||| UInt8.ofNat n.val) &&& 0x10 = 0 := by decide
  have hpass {n : UInt32} (hn : n.toNat ≤ 7) (c : Chip) : c.command (eoi ||| n.toUInt8) = c := by
    have hbit := hword ⟨n.toNat, by omega⟩
    rw [UInt8.ofNat_uInt32ToNat] at hbit
    exact if_pos hbit
  have hcascade (c : Chip) : c.command (eoi + 2) = c := if_pos (by decide)
  have hmaster :
      (if irqNum ≤ 7 then s.outb (eoi ||| irqNum.toUInt8) master8259Port else s) = s := by
    split_ifs with hlow
    · rw [outb, if_pos rfl, hpass (UInt32.le_iff_toNat_le.mp hlow)]
    · rfl
  unfold sendEoi
  rw [hmaster]
  dsimp only
  split_ifs with hhigh
  · have hsub : (irqNum - 8).toNat ≤ 7 := by
      have hle := UInt32.le_iff_toNat_le.mp hhigh.2
      rw [UInt32.toNat_sub_of_le _ _ hhigh.1]
      exact Nat.sub_le_sub_right hle 8
    have hslave : s.outb (eoi ||| (irqNum - 8).toUInt8) slave8259Port = s := by
      simp only [outb, master8259Port, slave8259Port, hpass hsub]
      rfl
    rw [hslave, outb, if_pos rfl, hcascade]
  · rfl

/-- A run of calls and where it has brought the chips: the second one gets its mask only when one
of its own lines is enabled or disabled, and has all of them open until then. -/
structure Masked (calls : List IrqCall) (s : Pics) : Prop extends Ready s where
  written : (∃ c ∈ calls, c.OnSlave) → s.slave.imr = s.devices.slaveMask
  fresh : (¬ ∃ c ∈ calls, c.OnSlave) → s.slave.imr = 0 ∧ s.devices.slaveMask = 0xFF

theorem masked_init : Masked [] (loaded d master slave).i8259Init := by
  rw [i8259Init_eq]
  exact ⟨⟨rfl, rfl, rfl⟩, by simp, fun _ ↦ ⟨rfl, rfl⟩⟩

theorem Masked.call (h : Masked calls s) (c : IrqCall) : Masked (calls ++ [c]) (c.call s) := by
  have hexists : (∃ e ∈ calls ++ [c], e.OnSlave) ↔ (∃ e ∈ calls, e.OnSlave) ∨ c.OnSlave := by
    simp [or_and_right, exists_or]
  have hmasking := c.masking_masks s.devices
  rw [IrqCall.call_eq, sendMask_eq h.toReady]
  refine ⟨⟨?_, ?_, ?_⟩, ?_, ?_⟩
  · dsimp only
    split_ifs <;> exact h.masterWords
  · dsimp only
    split_ifs <;> exact h.slaveWords
  · dsimp only
    split_ifs with hlow
    · rfl
    · rw [hmasking.masterMask (by omega), h.master]
  · intro hw
    dsimp only
    split_ifs with hon
    · rfl
    · rw [hmasking.slaveMask hon]
      exact h.written ((hexists.mp hw).resolve_right hon)
  · intro hw
    rw [hexists, not_or] at hw
    have hoff : ¬ (8 ≤ c.irqNum.toNat ∧ c.irqNum.toNat ≤ 15) := hw.2
    dsimp only
    rw [if_neg hoff, hmasking.slaveMask hoff]
    exact h.fresh hw.1

def after (d : Devices) (master slave : Chip) (calls : List IrqCall) : Pics :=
  calls.foldl IrqCall.call (loaded d master slave).i8259Init

theorem masked_after : Masked calls (after d master slave calls) := by
  unfold after
  induction calls using List.reverseRecOn with
  | nil => exact masked_init
  | append_singleton calls c ih =>
    rw [List.foldl_append]
    exact ih.call c

/-- The lines that are enabled: line 2 by `i8259_init`, the others by the latest call. -/
def enabled (calls : List IrqCall) (line : ℕ) : Bool :=
  last (fun line ↦ decide (line = slaveIrqLine)) (calls.map IrqCall.write) line

theorem allowed_init (hi : i < 16) :
    (loaded d master slave).i8259Init.devices.allowed i = decide (i = slaveIrqLine) := by
  have hloaded : ∀ i < 16, (loaded d master slave).devices.allowed i = false := by
    simp only [loaded, Devices.allowed]
    decide
  rw [i8259Init_eq, (Devices.masking_enableIrq _ _).allowed hi, update_apply, hloaded i hi]
  by_cases he : i = 2 <;> simp [he, slaveIrqLine]

theorem allowed_call (hi : i < 16) : (c.call s).devices.allowed i =
    update s.devices.allowed c.write.1 c.write.2 i := by
  have hdevices : (c.call s).devices = c.masks s.devices := by
    rw [IrqCall.call_eq, sendMask]
    split_ifs <;> rfl
  rw [hdevices, c.write_fst]
  exact (c.masking_masks s.devices).allowed hi

theorem allowed_after (hline : line < 16) :
    (after d master slave calls).devices.allowed line = enabled calls line := by
  refine shows_last (v := fun s : Pics ↦ s.devices.allowed) (S := {line | line < 16})
    (fun i hi ↦ ?_) (fun s c i hi ↦ ?_) calls line hline
  · exact allowed_init hi
  · exact allowed_call hi

/-- The chips as the kernel's masks describe them, and no line open but those enabled. -/
structure Faithful (calls : List IrqCall) (s : Pics) : Prop where
  master : s.master.imr = s.devices.masterMask
  slave : s.slave.imr = s.devices.slaveMask
  unmasked : ∀ line < 16, s.unmasked line = enabled calls line

/-- From any state of the chips, after the initialization and any list of calls, the chips are as
the masks describe them if and only if one of the calls was about a line of the second chip:
`i8259_init` itself leaves all its lines open. -/
theorem chips_faithful_iff (d : Devices) (master slave : Chip) (calls : List IrqCall) :
    Faithful calls (after d master slave calls) ↔ ∃ c ∈ calls, c.OnSlave := by
  have h : Masked calls (after d master slave calls) := masked_after
  constructor
  · intro hf
    by_contra hnone
    obtain ⟨hopen, hmask⟩ := h.fresh hnone
    have he := hopen.symm.trans (hf.slave.trans hmask)
    exact absurd he (by decide)
  · intro hsome
    refine ⟨h.master, h.written hsome, fun line hline ↦ ?_⟩
    rw [← allowed_after hline, unmasked, Devices.allowed, h.master, h.written hsome]

/-- Right after the initialization an interrupt of the clock passes, although no call has
enabled it. -/
theorem clock_open_after_init :
    ¬ Faithful [] (after ⟨0, 0, 0, 0, false⟩ ⟨0xFF, 0⟩ ⟨0xFF, 0⟩ []) ∧
    (after ⟨0, 0, 0, 0, false⟩ ⟨0xFF, 0⟩ ⟨0xFF, 0⟩ []).unmasked rtcIrqLine = true ∧
    enabled [] rtcIrqLine = false := by
  refine ⟨fun h ↦ ?_, by decide, by decide⟩
  exact absurd h.slave (by decide)

end Pics

end ApollOS
