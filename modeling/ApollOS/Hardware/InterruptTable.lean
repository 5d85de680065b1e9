import ApollOS.Kernel.Idt
import Mathlib.Tactic.IntervalCases

namespace ApollOS

open Function

variable {d : IdtDesc} {address : Handler → UInt32} {idt : ℕ → IdtDesc} {i n : ℕ}
  {entries : List (ℕ × Handler)} {h : Handler}

namespace IdtDesc

theorem packed_offset_15_00 : d.packed.extractLsb' 0 16 = d.offset_15_00.toBitVec :=
  BitVec.extractLsb'_append_eq_right

theorem packed_seg_selector : d.packed.extractLsb' 16 16 = d.seg_selector.toBitVec := by
  rw [packed, BitVec.extractLsb'_append_eq_of_le (by decide)]
  exact BitVec.extractLsb'_append_eq_right

theorem packed_reserved3 : d.packed.extractLsb' 40 1 = d.reserved3 := by
  rw [packed]
  iterate 3 rw [BitVec.extractLsb'_append_eq_of_le (by decide)]
  exact BitVec.extractLsb'_append_eq_right

theorem packed_reserved2 : d.packed.extractLsb' 41 1 = d.reserved2 := by
  rw [packed]
  iterate 4 rw [BitVec.extractLsb'_append_eq_of_le (by decide)]
  exact BitVec.extractLsb'_append_eq_right

theorem packed_reserved1 : d.packed.extractLsb' 42 1 = d.reserved1 := by
  rw [packed]
  iterate 5 rw [BitVec.extractLsb'_append_eq_of_le (by decide)]
  exact BitVec.extractLsb'_append_eq_right

theorem packed_size : d.packed.extractLsb' 43 1 = d.size := by
  rw [packed]
  iterate 6 rw [BitVec.extractLsb'_append_eq_of_le (by decide)]
  exact BitVec.extractLsb'_append_eq_right

theorem packed_reserved0 : d.packed.extractLsb' 44 1 = d.reserved0 := by
  rw [packed]
  iterate 7 rw [BitVec.extractLsb'_append_eq_of_le (by decide)]
  exact BitVec.extractLsb'_append_eq_right

theorem packed_dpl : d.packed.extractLsb' 45 2 = d.dpl := by
  rw [packed]
  iterate 8 rw [BitVec.extractLsb'_append_eq_of_le (by decide)]
  exact BitVec.extractLsb'_append_eq_right

theorem packed_present : d.packed.extractLsb' 47 1 = d.present := by
  rw [packed]
  iterate 9 rw [BitVec.extractLsb'_append_eq_of_le (by decide)]
  exact BitVec.extractLsb'_append_eq_right

theorem packed_offset_31_16 : d.packed.extractLsb' 48 16 = d.offset_31_16.toBitVec := by
  rw [packed]
  iterate 10 rw [BitVec.extractLsb'_append_eq_of_le (by decide)]
  exact BitVec.extractLsb'_eq_self

end IdtDesc

theorem gate_packed (hpresent : d.present = 1) (h0 : d.reserved0 = 0) (hsize : d.size = 1)
    (h1 : d.reserved1 = 1) (h2 : d.reserved2 = 1) :
    gate d.packed = some
      { offset := ⟨d.offset_31_16.toBitVec ++ d.offset_15_00.toBitVec⟩
        selector := d.seg_selector
        dpl := d.dpl.toNat
        trap := decide (d.reserved3 = 1) } := by
  rw [gate, d.packed_present, d.packed_reserved0, d.packed_size, d.packed_reserved1,
    d.packed_reserved2, if_pos ⟨hpresent, h0, hsize, h1, h2⟩, d.packed_offset_31_16,
    d.packed_offset_15_00, d.packed_seg_selector, d.packed_dpl, d.packed_reserved3]

theorem toBitVec_setIdtEntry {a : UInt32} :
    (d.setIdtEntry a).offset_31_16.toBitVec ++ (d.setIdtEntry a).offset_15_00.toBitVec =
      a.toBitVec := by
  have hhigh : (d.setIdtEntry a).offset_31_16.toBitVec = a.toBitVec.extractLsb' 16 16 := by
    apply BitVec.eq_of_getLsbD_eq
    intro i hi
    simp [IdtDesc.setIdtEntry]
    interval_cases i <;> simp
  have hlow : (d.setIdtEntry a).offset_15_00.toBitVec = a.toBitVec.extractLsb' 0 16 := by
    apply BitVec.eq_of_getLsbD_eq
    intro i hi
    simp [IdtDesc.setIdtEntry]
    interval_cases i <;> simp
  rw [hhigh, hlow]
  exact BitVec.extractLsb'_append_extractLsb'

/-- The entry that the loop leaves for a vector. -/
def vectorEntry (address : Handler → UInt32) (i : ℕ) (d : IdtDesc) : IdtDesc :=
  initVector address (fun _ ↦ d) i i

theorem initVectors_eq : (List.range n).foldl (initVector address) idt i =
    if i < n then vectorEntry address i (idt i) else idt i := by
  induction n with
  | zero => rfl
  | succ n ih =>
    rw [List.range_succ, List.foldl_append, List.foldl_cons, List.foldl_nil]
    by_cases hi : i = n
    · subst hi
      rw [if_pos (Nat.lt_succ_self i), vectorEntry, initVector, initVector, update_self,
        update_self, ih, if_neg (lt_irrefl i)]
    · rw [initVector, update_of_ne hi, ih]
      have hiff : i < n ↔ i < n + 1 := by omega
      rw [if_congr hiff rfl rfl]

theorem named_eq (hnodup : (entries.map Prod.fst).Nodup) :
    entries.foldl (fun idt e ↦ update idt e.1 ((idt e.1).setIdtEntry (address e.2))) idt i =
      match entries.lookup i with
      | some h => (idt i).setIdtEntry (address h)
      | none => idt i := by
  induction entries generalizing idt with
  | nil => rfl
  | cons e entries ih =>
    obtain ⟨hnot, hrest⟩ := List.nodup_cons.mp hnodup
    rw [List.foldl_cons, ih hrest, List.lookup_cons]
    by_cases hi : i = e.1
    · subst hi
      have hnone : entries.lookup e.1 = none := by
        rw [List.lookup_eq_none_iff]
        intro p hp
        rw [bne_iff_ne]
        exact fun he ↦ hnot (he ▸ List.mem_map_of_mem hp)
      simp [hnone]
    · have hne : (i == e.1) = false := by simpa using hi
      rw [hne, update_of_ne hi]

/-- Where a vector leads: a vector that the processor keeps to itself leads nowhere. -/
def vectorOffset (address : Handler → UInt32) (i : ℕ) : UInt32 :=
  match namedEntries.lookup i with
  | some h => address h
  | none => if i ≥ 32 then address .exGeneric else 0

/-- The entry looks like one that the loop fills in, up to its offset. -/
structure Prepared (i : ℕ) (d : IdtDesc) : Prop where
  selector : d.seg_selector = kernelCs
  trap : d.reserved3 = if i < 32 ∨ i = intSyscall then 1 else 0
  reserved2 : d.reserved2 = 1
  reserved1 : d.reserved1 = 1
  size : d.size = 1
  reserved0 : d.reserved0 = 0
  dpl : d.dpl = if i = intSyscall then 3 else 0
  present : d.present = 1

namespace Prepared

theorem vectorEntry : Prepared i (vectorEntry address i d) := by
  rw [ApollOS.vectorEntry, initVector, update_self]
  split <;> constructor <;> rfl

theorem setIdtEntry {a : UInt32} (hd : Prepared i d) : Prepared i (d.setIdtEntry a) := by
  obtain ⟨h1, h2, h3, h4, h5, h6, h7, h8⟩ := hd
  exact ⟨h1, h2, h3, h4, h5, h6, h7, h8⟩

theorem gate (hd : Prepared i d) : gate d.packed = some
    { offset := ⟨d.offset_31_16.toBitVec ++ d.offset_15_00.toBitVec⟩
      selector := kernelCs
      dpl := if i = intSyscall then 3 else 0
      trap := decide (i < 32 ∨ i = intSyscall) } := by
  rw [gate_packed hd.present hd.reserved0 hd.size hd.reserved1 hd.reserved2, hd.selector, hd.dpl,
    hd.trap]
  have hdpl : (if i = intSyscall then (3 : BitVec 2) else 0).toNat =
      if i = intSyscall then 3 else 0 := by
    split <;> rfl
  have htrap : decide ((if i < 32 ∨ i = intSyscall then (1 : BitVec 1) else 0) = 1) =
      decide (i < 32 ∨ i = intSyscall) := by
    split <;> simp [*]
  rw [hdpl, htrap]

end Prepared

/-- What the processor finds in the table that the kernel sets up. -/
theorem gate_initIdt (hi : i < numVec) :
    gate (initIdt address (fun _ ↦ .zero) i).packed = some
      { offset := vectorOffset address i
        selector := kernelCs
        dpl := if i = intSyscall then 3 else 0
        trap := decide (i < 32 ∨ i = intSyscall) } := by
  have hnodup : (namedEntries.map Prod.fst).Nodup := by decide
  rw [initIdt, named_eq hnodup, initVectors_eq, if_pos hi]
  have hentry : Prepared i (vectorEntry address i .zero) := .vectorEntry
  unfold vectorOffset
  cases namedEntries.lookup i with
  | some h => rw [hentry.setIdtEntry.gate, toBitVec_setIdtEntry]
  | none =>
    rw [hentry.gate]
    dsimp only
    by_cases hge : i ≥ 32
    · rw [if_pos hge, vectorEntry, initVector, update_self, if_pos hge, toBitVec_setIdtEntry]
    · rw [if_neg hge, vectorEntry, initVector, update_self, if_neg hge]
      have hzero : (0 : BitVec 16) ++ (0 : BitVec 16) = (0 : UInt32).toBitVec := by decide
      exact congrArg (fun o ↦ some (Gate.mk ⟨o⟩ _ _ _)) hzero

end ApollOS
