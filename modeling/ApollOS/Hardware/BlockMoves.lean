import ApollOS.Foundation.Fuel
import ApollOS.Foundation.Overlay
import ApollOS.Kernel.Screen
import ApollOS.Kernel.StringOps

namespace ApollOS.Cpu

open Function Fuel

variable {s s' : Cpu} {m : Memory} {dest src n a : UInt32} {c : Int32} {N k : ℕ}

section Phases

/-- What is kept while a range is gone through: `I k` says that the first `k` of its `N` bytes
are done. -/
structure Advances (byte long : Cpu → Cpu) (N : ℕ) (I : ℕ → Cpu → Prop) : Prop where
  counters : ∀ {k s} (ecx edx : UInt32) (df : Bool), I k s →
    I k { s with ecx := ecx, edx := edx, df := df }
  byteStep : ∀ {k s}, I k s → k < N → I (k + 1) (byte s)
  longStep : ∀ {k s}, I k s → k + 4 ≤ N → s.df = false → I (k + 4) (long s)
  longKept : ∀ s, (long s).df = s.df ∧ (long s).edx = s.edx

variable {byte long : Cpu → Cpu} {I : ℕ → Cpu → Prop}

theorem toNat_pred (h : a ≠ 0) : (a - 1).toNat + 1 = a.toNat := by
  have hpos : a.toNat ≠ 0 := fun h0 ↦ h (UInt32.toNat_inj.mp h0)
  have hle : (1 : UInt32) ≤ a := UInt32.le_iff_toNat_le.mpr (Nat.pos_of_ne_zero hpos)
  rw [UInt32.toNat_sub_of_le _ _ hle]
  exact Nat.sub_add_cancel (Nat.pos_of_ne_zero hpos)

namespace Advances

theorem bottom (h : Advances byte long N I) (hs : I k s) (hleft : k + s.edx.toNat = N) :
    ∃ s', Yields (fun fuel ↦ Cpu.bottom byte fuel s) s' ∧ I N s' := by
  generalize hr : s.edx.toNat = r at hleft
  induction r generalizing k s with
  | zero =>
    have hzero : s.edx = 0 := UInt32.toNat_inj.mp hr
    have hk : k = N := hleft
    exact ⟨s, .of_succ fun fuel ↦ if_pos hzero, hk ▸ hs⟩
  | succ r ih =>
    have hne : s.edx ≠ 0 := by
      rintro h0
      rw [h0] at hr
      cases hr
    have hpred : (s.edx - 1).toNat = r := Nat.succ.inj ((toNat_pred hne).trans hr)
    have hnext := h.counters (byte s).ecx (s.edx - 1) (byte s).df (h.byteStep hs (by omega))
    obtain ⟨s', hs', hI⟩ := ih hnext hpred (by omega)
    exact ⟨s', (yields_succ_iff fun fuel ↦ if_neg hne).mpr hs', hI⟩

theorem rep (h : Advances byte long N I) (hs : I k s) (hdf : s.df = false)
    (hleft : k + 4 * s.ecx.toNat ≤ N) :
    I (k + 4 * s.ecx.toNat) (s.rep long) ∧ (s.rep long).edx = s.edx := by
  unfold Cpu.rep
  generalize s.ecx.toNat = r at hleft
  induction r generalizing k s with
  | zero => exact ⟨hs, rfl⟩
  | succ r ih =>
    obtain ⟨hlong, hedx⟩ := h.longKept s
    have hnext := h.counters (s.ecx - 1) (long s).edx (long s).df (h.longStep hs (by omega) hdf)
    obtain ⟨hI, he⟩ := ih hnext (hlong.trans hdf) (by omega)
    have hk : k + 4 * (r + 1) = k + 4 + 4 * r := by omega
    rw [iterate_succ_apply, hk]
    exact ⟨hI, he.trans hedx⟩

theorem aligned (h : Advances byte long N I) (hs : I k s) (hleft : k + s.ecx.toNat = N) :
    ∃ s', Yields (fun fuel ↦ Cpu.aligned byte long fuel s) s' ∧ I N s' := by
  have hlong : (s.ecx >>> 2).toNat = s.ecx.toNat / 4 := by
    rw [UInt32.toNat_shiftRight]
    exact Nat.shiftRight_eq_div_pow _ 2
  have hrest : (s.ecx &&& 3).toNat = s.ecx.toNat % 4 := by
    rw [UInt32.toNat_and]
    exact Nat.and_two_pow_sub_one_eq_mod _ 2
  have hrep := h.rep (h.counters (s.ecx >>> 2) (s.ecx &&& 3) false hs) rfl (by dsimp only; omega)
  refine h.bottom hrep.1 ?_
  rw [hrep.2]
  dsimp only
  omega

/-- The phases come to an end with the whole range done, wherever it begins and however many
bytes it has. -/
theorem top (h : Advances byte long N I) (hs : I k s) (hleft : k + s.ecx.toNat = N) :
    ∃ s', Yields (fun fuel ↦ Cpu.top byte long fuel s) s' ∧ I N s' := by
  generalize hr : s.ecx.toNat = r at hleft
  induction r generalizing k s with
  | zero =>
    have hzero : s.ecx = 0 := UInt32.toNat_inj.mp hr
    have hk : k = N := hleft
    exact ⟨s, .of_succ fun fuel ↦ if_pos hzero, hk ▸ hs⟩
  | succ r ih =>
    have hne : s.ecx ≠ 0 := by
      rintro h0
      rw [h0] at hr
      cases hr
    by_cases halign : s.edi &&& 3 = 0
    · obtain ⟨s', hs', hI⟩ := h.aligned hs (by omega)
      refine ⟨s', (yields_succ_iff fun fuel ↦ ?_).mpr hs', hI⟩
      rw [Cpu.top, if_neg hne, if_pos halign]
    · have hpred : (s.ecx - 1).toNat = r := Nat.succ.inj ((toNat_pred hne).trans hr)
      have hnext := h.counters (s.ecx - 1) (byte s).edx (byte s).df (h.byteStep hs (by omega))
      obtain ⟨s', hs', hI⟩ := ih hnext hpred (by omega)
      refine ⟨s', (yields_succ_iff fun fuel ↦ ?_).mpr hs', hI⟩
      rw [Cpu.top, if_neg hne, if_neg halign]

end Advances

end Phases

section Stores

variable {f : ℕ → UInt8}

theorem toNat_add_ofNat (h : a.toNat + k < 2 ^ 32) : (a + UInt32.ofNat k).toNat = a.toNat + k := by
  rw [UInt32.toNat_add, UInt32.toNat_ofNat', Nat.add_mod_mod, Nat.mod_eq_of_lt h]

theorem add_ofNat_add {j : ℕ} : a + UInt32.ofNat k + UInt32.ofNat j = a + UInt32.ofNat (k + j) := by
  rw [UInt32.ofNat_add, UInt32.add_assoc]

theorem storeByte_overlay (hk : dest.toNat + k < 2 ^ 32) (hm : s.mem = overlay m dest.toNat k f) :
    (s.storeByte (dest + UInt32.ofNat k) (f k)).mem = overlay m dest.toNat (k + 1) f := by
  rw [storeByte, toNat_add_ofNat hk, hm, Nat.cast_add]
  exact update_overlay

theorem storeLong_overlay (hk : dest.toNat + (k + 4) ≤ 2 ^ 32)
    (hm : s.mem = overlay m dest.toNat k f) :
    (s.storeLong (dest + UInt32.ofNat k) (f k) (f (k + 1)) (f (k + 2)) (f (k + 3))).mem =
      overlay m dest.toNat (k + 4) f := by
  have h₁ := storeByte_overlay (by omega) hm
  have h₂ := storeByte_overlay (by omega) h₁
  have h₃ := storeByte_overlay (by omega) h₂
  have h₄ := storeByte_overlay (by omega) h₃
  rw [← add_ofNat_add (k := k) (j := 1)] at h₂ h₃ h₄
  rw [← add_ofNat_add (k := k) (j := 2)] at h₃ h₄
  rw [← add_ofNat_add (k := k) (j := 3)] at h₄
  exact h₄

end Stores

section Memset

/-- The fill of `memset` in progress. -/
structure Filling (m : Memory) (dest : UInt32) (x : UInt8) (k : ℕ) (s : Cpu) : Prop where
  edi : s.edi = dest + UInt32.ofNat k
  mem : s.mem = overlay m dest.toNat k fun _ ↦ x
  bytes : s.eax.toUInt8 = x ∧ (s.eax >>> 8).toUInt8 = x ∧ (s.eax >>> 16).toUInt8 = x ∧
    (s.eax >>> 24).toUInt8 = x

theorem filling_advances {x : UInt8} (hdest : dest.toNat + N ≤ 2 ^ 32) :
    Advances memsetByte stosl N (Filling m dest x) where
  counters _ _ _ h := ⟨h.edi, h.mem, h.bytes⟩
  byteStep {k s} h hk := by
    refine ⟨?_, ?_, h.bytes⟩
    · rw [← add_ofNat_add, ← h.edi]
      rfl
    · have hmem := storeByte_overlay (by omega) h.mem
      rw [← h.edi] at hmem
      rw [memsetByte, al, h.bytes.1]
      exact hmem
  longStep {k s} h hk hdf := by
    obtain ⟨h₀, h₁, h₂, h₃⟩ := h.bytes
    refine ⟨?_, ?_, h.bytes⟩
    · rw [← add_ofNat_add, ← h.edi, stosl, stride, hdf]
      rfl
    · have hmem := storeLong_overlay (by omega) h.mem
      rw [← h.edi] at hmem
      rw [stosl, h₀, h₁, h₂, h₃]
      exact hmem
  longKept _ := ⟨rfl, rfl⟩

theorem broadcast_bytes : ∀ x : Fin 256,
    let c := UInt32.ofNat x.val
    let eax := c <<< 24 ||| c <<< 16 ||| c <<< 8 ||| c
    eax.toUInt8 = UInt8.ofNat x.val ∧ (eax >>> 8).toUInt8 = UInt8.ofNat x.val ∧
      (eax >>> 16).toUInt8 = UInt8.ofNat x.val ∧ (eax >>> 24).toUInt8 = UInt8.ofNat x.val := by
  decide +kernel

def lowByte (c : Int32) : UInt8 := c.toUInt32.toUInt8

theorem masked_eq : (c &&& 0xFF).toUInt32 = UInt32.ofNat (lowByte c).toNat := by
  have hmask : (c &&& 0xFF).toUInt32 = c.toUInt32 &&& 0xFF := rfl
  refine UInt32.toNat_inj.mp ?_
  rw [hmask, UInt32.toNat_and, lowByte, UInt32.toNat_toUInt8, UInt32.toNat_ofNat_of_lt']
  · exact Nat.and_two_pow_sub_one_eq_mod _ 8
  · exact (Nat.mod_lt _ (by decide)).trans (by decide)

theorem memset_yields (hdest : dest.toNat + n.toNat ≤ 2 ^ 32) :
    ∃ s', Yields (fun fuel ↦ s.memset fuel dest c n) (s', dest) ∧
      s'.mem = overlay s.mem dest.toNat n.toNat fun _ ↦ lowByte c := by
  have hbytes := broadcast_bytes ⟨(lowByte c).toNat, (lowByte c).toNat_lt⟩
  dsimp only at hbytes
  rw [UInt8.ofNat_toNat, ← masked_eq] at hbytes
  have hstart : Filling s.mem dest (lowByte c) 0
      { s with
        eax := (c &&& 0xFF).toUInt32 <<< 24 ||| (c &&& 0xFF).toUInt32 <<< 16 |||
          (c &&& 0xFF).toUInt32 <<< 8 ||| (c &&& 0xFF).toUInt32
        edi := dest
        ecx := n } :=
    ⟨(UInt32.add_zero dest).symm, overlay_zero.symm, hbytes⟩
  obtain ⟨s', hs', hfilled⟩ := (filling_advances hdest).top hstart (Nat.zero_add _)
  exact ⟨s', hs'.map (·, dest), hfilled.mem⟩

end Memset

section Memcpy

/-- No byte of the source is overwritten before it is read, if bytes are copied upwards. -/
def Unread (dest src : UInt32) (N : ℕ) : Prop :=
  ∀ k i, k ≤ i → i < N → ¬ (dest.toNat ≤ src.toNat + i ∧ src.toNat + i < dest.toNat + k)

def source (m : Memory) (src : UInt32) (i : ℕ) : UInt8 := m (src.toNat + i : ℕ)

/-- A copy upwards in progress. -/
structure Copying (m : Memory) (dest src : UInt32) (k : ℕ) (s : Cpu) : Prop where
  edi : s.edi = dest + UInt32.ofNat k
  esi : s.esi = src + UInt32.ofNat k
  mem : s.mem = overlay m dest.toNat k (source m src)

theorem Copying.loadByte (h : Copying m dest src k s) (hsrc : src.toNat + N ≤ 2 ^ 32)
    (hunread : Unread dest src N) {j : ℕ} (hj : k + j < N) :
    s.loadByte (s.esi + UInt32.ofNat j) = source m src (k + j) := by
  rw [Cpu.loadByte, h.esi, add_ofNat_add, toNat_add_ofNat (by omega), h.mem]
  exact overlay_outside fun hin ↦ hunread k (k + j) (by omega) hj (by omega)

theorem al_setAl {x : UInt8} : (s.setAl x).al = x := by
  have hclear : (0xFFFFFF00 : UInt32).toUInt8 = 0 := by decide
  rw [al, setAl, UInt32.toUInt8_or, UInt32.toUInt8_and, hclear, UInt8.and_zero, UInt8.zero_or,
    UInt8.toUInt8_toUInt32]

theorem copying_byte (h : Copying m dest src k s) (hdest : dest.toNat + N ≤ 2 ^ 32)
    (hsrc : src.toNat + N ≤ 2 ^ 32) (hunread : Unread dest src N) (hk : k < N) :
    (s.storeByte s.edi (s.loadByte s.esi)).mem = overlay m dest.toNat (k + 1) (source m src) := by
  have hbyte := h.loadByte hsrc hunread (j := 0) hk
  have hmem := storeByte_overlay (by omega) h.mem
  rw [← h.edi] at hmem
  have hesi : s.esi + UInt32.ofNat 0 = s.esi := UInt32.add_zero _
  rw [hesi] at hbyte
  rw [hbyte]
  exact hmem

theorem copying_advances (hdest : dest.toNat + N ≤ 2 ^ 32) (hsrc : src.toNat + N ≤ 2 ^ 32)
    (hunread : Unread dest src N) : Advances memcpyByte movsl N (Copying m dest src) where
  counters _ _ _ h := ⟨h.edi, h.esi, h.mem⟩
  byteStep {k s} h hk := by
    refine ⟨?_, ?_, ?_⟩
    · rw [← add_ofNat_add, ← h.edi]
      rfl
    · rw [← add_ofNat_add, ← h.esi]
      rfl
    · have hmem := copying_byte h hdest hsrc hunread hk
      rw [memcpyByte, al_setAl]
      exact hmem
  longStep {k s} h hk hdf := by
    have hread {j : ℕ} (hj : k + j < N) := h.loadByte hsrc hunread hj
    refine ⟨?_, ?_, ?_⟩
    · rw [← add_ofNat_add, ← h.edi, movsl, stride, hdf]
      rfl
    · rw [← add_ofNat_add, ← h.esi, movsl, stride, hdf]
      rfl
    · have hmem := storeLong_overlay (by omega) h.mem
      rw [← h.edi, ← hread (j := 1) (by omega), ← hread (j := 2) (by omega),
        ← hread (j := 3) (by omega), ← Nat.add_zero k, ← hread (j := 0) (by omega)] at hmem
      have hesi : s.esi + UInt32.ofNat 0 = s.esi := UInt32.add_zero _
      rw [hesi] at hmem
      exact hmem
  longKept _ := ⟨rfl, rfl⟩

theorem unread_of_disjoint (h : dest.toNat + N ≤ src.toNat ∨ src.toNat + N ≤ dest.toNat) :
    Unread dest src N := by
  rintro k i hki hi ⟨hlow, hhigh⟩
  omega

theorem memcpy_yields (hdest : dest.toNat + n.toNat ≤ 2 ^ 32) (hsrc : src.toNat + n.toNat ≤ 2 ^ 32)
    (hdisjoint : dest.toNat + n.toNat ≤ src.toNat ∨ src.toNat + n.toNat ≤ dest.toNat) :
    ∃ s', Yields (fun fuel ↦ s.memcpy fuel dest src n) (s', dest) ∧
      s'.mem = overlay s.mem dest.toNat n.toNat (source s.mem src) := by
  have hstart : Copying s.mem dest src 0 { s with esi := src, edi := dest, ecx := n } :=
    ⟨(UInt32.add_zero dest).symm, (UInt32.add_zero src).symm, overlay_zero.symm⟩
  obtain ⟨s', hs', hcopied⟩ := (copying_advances hdest hsrc (unread_of_disjoint hdisjoint)).top
    hstart (Nat.zero_add _)
  exact ⟨s', hs'.map (·, dest), hcopied.mem⟩

end Memcpy

section Memmove

theorem rep_movsb_up (hdest : dest.toNat + N ≤ 2 ^ 32) (hsrc : src.toNat + N ≤ 2 ^ 32)
    (hle : dest.toNat ≤ src.toNat) (h : Copying m dest src k s) (hdf : s.df = false)
    (hleft : k + s.ecx.toNat = N) :
    (s.rep movsb).mem = overlay m dest.toNat N (source m src) := by
  have hunread : Unread dest src N := fun k i hki _ ⟨_, hhigh⟩ ↦ by omega
  unfold rep
  generalize s.ecx.toNat = r at hleft
  induction r generalizing k s with
  | zero =>
    have hk : k = N := hleft
    rw [← hk]
    exact h.mem
  | succ r ih =>
    rw [iterate_succ_apply]
    refine ih (k := k + 1) ⟨?_, ?_, ?_⟩ hdf (by omega)
    · rw [← add_ofNat_add, ← h.edi]
      simp only [movsb, stride, hdf]
      rfl
    · rw [← add_ofNat_add, ← h.esi]
      simp only [movsb, stride, hdf]
      rfl
    · exact copying_byte h hdest hsrc hunread (by omega)

theorem rep_movsb_down {r : ℕ} (hdest : dest.toNat + (r + k) ≤ 2 ^ 32)
    (hsrc : src.toNat + (r + k) ≤ 2 ^ 32) (hle : src.toNat ≤ dest.toNat)
    (hedi : s.edi + 1 = dest + UInt32.ofNat r) (hesi : s.esi + 1 = src + UInt32.ofNat r)
    (hmem : s.mem = overlay m (dest.toNat + r) k fun i ↦ source m src (r + i))
    (hdf : s.df = true) :
    ((fun s : Cpu ↦ { s.movsb with ecx := s.ecx - 1 })^[r] s).mem =
      overlay m dest.toNat (r + k) (source m src) := by
  induction r generalizing k s with
  | zero => simpa using hmem
  | succ r ih =>
    rw [← add_ofNat_add (j := 1)] at hedi hesi
    have hedi' : s.edi = dest + UInt32.ofNat r := (UInt32.add_left_inj 1).mp hedi
    have hesi' : s.esi = src + UInt32.ofNat r := (UInt32.add_left_inj 1).mp hesi
    have hstride : s.stride 1 = -1 := by rw [stride, hdf, if_pos rfl]
    have hback : (-1 + 1 : UInt32) = 0 := by decide
    have hbyte : s.loadByte s.esi = source m src r := by
      rw [Cpu.loadByte, hesi', toNat_add_ofNat (by omega), hmem]
      exact overlay_outside (by omega)
    have hnext : s.movsb.mem = overlay m (dest.toNat + r) (k + 1) fun i ↦ source m src (r + i) := by
      have haddr : (s.edi.toNat : ℤ) = dest.toNat + r := by
        rw [hedi', toNat_add_ofNat (by omega), Nat.cast_add]
      have hshift : (fun i ↦ source m src (r + 1 + i)) = fun i ↦ source m src (r + (i + 1)) := by
        funext i
        rw [Nat.add_assoc, Nat.add_comm 1 i]
      have hstored : s.movsb.mem = update s.mem (s.edi.toNat : ℤ) (s.loadByte s.esi) := rfl
      rw [hstored, haddr, hbyte, hmem, hshift, Nat.cast_succ, ← add_assoc]
      exact update_overlay_below (f := fun i ↦ source m src (r + i))
    rw [iterate_succ_apply]
    have hk : r + 1 + k = r + (k + 1) := by omega
    rw [hk]
    refine ih (by omega) (by omega) ?_ ?_ hnext hdf
    · simp only [movsb, hstride]
      rw [← hedi', UInt32.add_assoc, hback, UInt32.add_zero]
    · simp only [movsb, hstride]
      rw [← hesi', UInt32.add_assoc, hback, UInt32.add_zero]

theorem memmove_mem (hdest : dest.toNat + n.toNat ≤ 2 ^ 32) (hsrc : src.toNat + n.toNat ≤ 2 ^ 32) :
    (s.memmove dest src n).1.mem = overlay s.mem dest.toNat n.toNat (source s.mem src) := by
  unfold memmove
  dsimp only
  split_ifs with hup
  · refine rep_movsb_up (k := 0) hdest hsrc (UInt32.le_iff_toNat_le.mp hup) ⟨?_, ?_, ?_⟩ rfl
      (Nat.zero_add _)
    · exact (UInt32.add_zero dest).symm
    · exact (UInt32.add_zero src).symm
    · exact overlay_zero.symm
  · have hlt : src.toNat < dest.toNat := Nat.lt_of_not_le (mt UInt32.le_iff_toNat_le.mpr hup)
    rw [rep]
    refine rep_movsb_down (k := 0) hdest hsrc hlt.le ?_ ?_ ?_ rfl
    · rw [UInt32.sub_add_cancel, UInt32.ofNat_toNat]
    · rw [UInt32.sub_add_cancel, UInt32.ofNat_toNat]
    · exact overlay_zero.symm

end Memmove

/-- A range of bytes moved as they were before, and nothing else changed. -/
structure Moved (m m' : Memory) (dest src n : UInt32) : Prop where
  copied : ∀ k < n.toNat, m' (dest.toNat + k : ℕ) = m (src.toNat + k : ℕ)
  others : ∀ a : ℤ, ¬ (dest.toNat ≤ a ∧ a < dest.toNat + n.toNat) → m' a = m a

/-- A range of bytes all set to one value, and nothing else changed. -/
structure Filled (m m' : Memory) (dest n : UInt32) (x : UInt8) : Prop where
  filled : ∀ k < n.toNat, m' (dest.toNat + k : ℕ) = x
  others : ∀ a : ℤ, ¬ (dest.toNat ≤ a ∧ a < dest.toNat + n.toNat) → m' a = m a

theorem moved_overlay : Moved m (overlay m dest.toNat n.toNat (source m src)) dest src n where
  copied k hk := by
    rw [Nat.cast_add, overlay_inside hk]
    rfl
  others _ ha := overlay_outside ha

theorem filled_overlay {x : UInt8} :
    Filled m (overlay m dest.toNat n.toNat fun _ ↦ x) dest n x where
  filled k hk := by rw [Nat.cast_add, overlay_inside hk]
  others _ ha := overlay_outside ha

/-- The copies that the rest of the kernel is modelled with are those of the string
instructions. -/
theorem overlay_eq_memcpy : overlay m dest.toNat n.toNat (source m src) =
    ApollOS.memcpy m dest.toNat src.toNat n.toNat := by
  funext a
  unfold overlay ApollOS.memcpy source
  split_ifs with hin
  · congr 1
    omega
  · rfl

/-- On ranges that end within the address space, `memset`, `memcpy` where they do not overlap,
and `memmove` however they do come to an end and leave what the plain loops over the bytes
would. -/
theorem block_operations (s : Cpu) (dest src n : UInt32) (c : Int32)
    (hdest : dest.toNat + n.toNat ≤ 2 ^ 32) :
    (∃ s', Yields (fun fuel ↦ s.memset fuel dest c n) (s', dest) ∧
      Filled s.mem s'.mem dest n (lowByte c)) ∧
    (src.toNat + n.toNat ≤ 2 ^ 32 →
      (dest.toNat + n.toNat ≤ src.toNat ∨ src.toNat + n.toNat ≤ dest.toNat →
        ∃ s', Yields (fun fuel ↦ s.memcpy fuel dest src n) (s', dest) ∧
          Moved s.mem s'.mem dest src n) ∧
      (s.memmove dest src n).2 = dest ∧ Moved s.mem (s.memmove dest src n).1.mem dest src n) := by
  refine ⟨?_, fun hsrc ↦ ⟨fun hdisjoint ↦ ?_, rfl, ?_⟩⟩
  · obtain ⟨s', hs', hmem⟩ := memset_yields (s := s) (c := c) hdest
    exact ⟨s', hs', hmem ▸ filled_overlay⟩
  · obtain ⟨s', hs', hmem⟩ := memcpy_yields (s := s) hdest hsrc hdisjoint
    exact ⟨s', hs', hmem ▸ moved_overlay⟩
  · rw [memmove_mem hdest hsrc]
    exact moved_overlay

def sampleCpu : Cpu where
  eax := 0
  ecx := 0
  edx := 0
  esi := 0
  edi := 0
  df := true
  mem a := UInt8.ofNat a.toNat

theorem block_operations_sample :
    (∃ s', Yields (fun fuel ↦ sampleCpu.memset fuel 5 0x141 7) (s', 5) ∧
      Filled sampleCpu.mem s'.mem 5 7 (lowByte 0x141)) ∧
    (∃ s', Yields (fun fuel ↦ sampleCpu.memcpy fuel 5 18 7) (s', 5) ∧
      Moved sampleCpu.mem s'.mem 5 18 7) ∧
    Moved sampleCpu.mem (sampleCpu.memmove 5 18 7).1.mem 5 18 7 := by
  obtain ⟨hset, hmoves⟩ := block_operations sampleCpu 5 18 7 0x141 (by decide)
  obtain ⟨hcopy, -, hmove⟩ := hmoves (by decide)
  exact ⟨hset, hcopy (by decide), hmove⟩

end ApollOS.Cpu
