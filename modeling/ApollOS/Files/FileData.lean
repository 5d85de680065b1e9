import ApollOS.Foundation.Reader
import ApollOS.Process.Boot
import Mathlib.Tactic.IntervalCases

namespace ApollOS

open Reader

/-- An image as the kernel expects it: no file is longer than its block table can
say, the blocks it names are in the image, and so are the inodes of its files. -/
structure Image.WellFormed (img : Image) : Prop where
  length_le : ∀ i < img.numInodes.toNat, (img.inodes i).length.toNat ≤ 1023 * 4096
  block_lt : ∀ i < img.numInodes.toNat, ∀ j, j * 4096 < (img.inodes i).length.toNat →
    (img.inodes i).dataBlockNum j < img.numDataBlocks
  inode_lt : ∀ i < img.numDirEntries.toNat, (img.dentries i).fileType = fileType →
    (img.dentries i).inodeNum < img.numInodes

def fileContent (img : Image) (inode : UInt32) : List UInt8 :=
  (List.range (img.inodes inode.toNat).length.toNat).map (fileByte img (img.inodes inode.toNat))

section ReadData

variable {img : Image} {inode offset length : UInt32} {nbytes : ℤ}

theorem length_fileContent :
    (fileContent img inode).length = (img.inodes inode.toNat).length.toNat := by
  simp [fileContent]

def readLength (node : Inode) (offset length : UInt32) : UInt32 :=
  if offset + length > node.length then node.length - offset else length

/-- A round of that loop: the entry of `data_block_num` it looks up, and the byte it
stores. -/
def readRound (img : Image) (node : Inode) (offset : UInt32) (i : ℕ) : ℕ × UInt8 :=
  let block := ((i.toUInt32 + offset) >>> 12).toNat
  let blockOffset := ((i.toUInt32 + offset) &&& 0xFFF).toNat
  (block, img.dataBlocks (node.dataBlockNum block).toNat blockOffset)

/-- All that a call of `read_data` does. -/
structure DataCall where
  value : ℤ
  blocks : List ℕ
  bytes : List UInt8

def readDataCall (img : Image) (inode offset length : UInt32) : DataCall :=
  if inode ≥ img.numInodes then ⟨-1, [], []⟩
  else
    let node := img.inodes inode.toNat
    if offset > node.length then ⟨-1, [], []⟩
    else
      let n := readLength node offset length
      let rounds := (List.range n.toNat).map (readRound img node offset)
      ⟨n.toInt32.toInt, rounds.map Prod.fst, rounds.map Prod.snd⟩

structure ValidRead (img : Image) (inode offset : UInt32) : Prop where
  inode_lt : inode < img.numInodes
  offset_le : offset ≤ (img.inodes inode.toNat).length

/-- What `read_data` is there for. -/
structure ReadsRight (img : Image) (inode offset length : UInt32) : Prop where
  value_neg_iff : (readDataCall img inode offset length).value = -1 ↔ ¬ ValidRead img inode offset
  stores_nothing : ¬ ValidRead img inode offset → (readDataCall img inode offset length).bytes = []
  value : ValidRead img inode offset → (readDataCall img inode offset length).value =
    (min length.toNat ((img.inodes inode.toNat).length.toNat - offset.toNat) : ℕ)
  bytes : ValidRead img inode offset → (readDataCall img inode offset length).bytes =
    chunk (fileContent img inode) offset.toNat length.toNat
  blocks : ∀ block ∈ (readDataCall img inode offset length).blocks,
    block < ((img.inodes inode.toNat).length.toNat + 4095) / 4096

/-- The sum of offset and length is too large for 32 bits, and what is left of it
passes for an offset in the file. -/
def Wraps (node : Inode) (offset length : UInt32) : Prop :=
  2 ^ 32 ≤ offset.toNat + length.toNat ∧ offset + length ≤ node.length

theorem toNat_at (i : ℕ) : (i.toUInt32 + offset).toNat = (i + offset.toNat) % 2 ^ 32 := by
  rw [UInt32.toNat_add, Nat.toUInt32_eq, UInt32.toNat_ofNat', Nat.mod_add_mod]

theorem readRound_eq {node : Inode} (i : ℕ) : readRound img node offset i =
    ((i + offset.toNat) % 2 ^ 32 / 4096, fileByte img node ((i + offset.toNat) % 2 ^ 32)) := by
  have hblock : ((i.toUInt32 + offset) >>> 12).toNat = (i + offset.toNat) % 2 ^ 32 / 4096 := by
    rw [UInt32.toNat_shiftRight, toNat_at, Nat.shiftRight_eq_div_pow]
    rfl
  have hoff : ((i.toUInt32 + offset) &&& 0xFFF).toNat = (i + offset.toNat) % 2 ^ 32 % 4096 := by
    rw [UInt32.toNat_and, toNat_at]
    exact Nat.and_two_pow_sub_one_eq_mod _ 12
  simp only [readRound, hblock, hoff, fileByte]

theorem readData_eq_call : readData img inode offset length =
    if inode ≥ img.numInodes ∨ offset > (img.inodes inode.toNat).length then none
    else some (readDataCall img inode offset length).bytes := by
  by_cases hin : inode ≥ img.numInodes
  · simp only [readData, hin, true_or, if_true]
  · by_cases hoff : offset > (img.inodes inode.toNat).length
    · simp only [readData, hin, hoff, or_true, if_true, if_false]
    · simp only [readData, readDataCall, hin, hoff, or_self, if_false, readLength, List.map_map]
      refine congrArg some (List.map_congr_left fun i _ ↦ ?_)
      exact (congrArg Prod.snd (readRound_eq i)).symm

section Length

variable {node : Inode}

theorem readLength_wraps (h : Wraps node offset length) :
    readLength node offset length = length :=
  if_neg (UInt32.not_lt.mpr h.2)

theorem readLength_toNat (hlen : node.length.toNat ≤ 1023 * 4096) (hoff : offset ≤ node.length)
    (h : ¬ Wraps node offset length) : (readLength node offset length).toNat =
      min length.toNat (node.length.toNat - offset.toNat) := by
  have hoff' := UInt32.le_iff_toNat_le.mp hoff
  have hlt := length.toNat_lt
  have hsub : (node.length - offset).toNat = node.length.toNat - offset.toNat :=
    UInt32.toNat_sub_of_le _ _ hoff
  have hsum : (offset + length).toNat = (offset.toNat + length.toNat) % 2 ^ 32 :=
    UInt32.toNat_add _ _
  have hwrap : 2 ^ 32 ≤ offset.toNat + length.toNat →
      node.length.toNat < (offset.toNat + length.toNat) % 2 ^ 32 := by
    intro hbig
    by_contra hle
    refine h ⟨hbig, UInt32.le_iff_toNat_le.mpr ?_⟩
    rw [hsum]
    omega
  unfold readLength
  split_ifs with hcut
  · rw [gt_iff_lt, UInt32.lt_iff_toNat_lt, hsum] at hcut
    rw [hsub]
    omega
  · rw [gt_iff_lt, UInt32.lt_iff_toNat_lt, hsum] at hcut
    omega

end Length

theorem readDataCall_invalid (h : ¬ ValidRead img inode offset) (length : UInt32) :
    readDataCall img inode offset length = ⟨-1, [], []⟩ := by
  unfold readDataCall
  split_ifs with hin
  · rfl
  · refine if_pos (UInt32.not_le.mp fun hoff ↦ h ⟨UInt32.not_le.mp hin, hoff⟩)

theorem readDataCall_valid (h : ValidRead img inode offset) (length : UInt32) :
    readDataCall img inode offset length =
      let node := img.inodes inode.toNat
      let n := readLength node offset length
      let rounds := (List.range n.toNat).map (readRound img node offset)
      ⟨n.toInt32.toInt, rounds.map Prod.fst, rounds.map Prod.snd⟩ := by
  rw [readDataCall, if_neg (UInt32.not_le.mpr h.inode_lt)]
  exact if_neg (UInt32.not_lt.mpr h.offset_le)

theorem rounds_in_file {node : Inode} {n : ℕ} (hnode : node = img.inodes inode.toNat)
    (hlen : node.length.toNat ≤ 1023 * 4096)
    (hn : n = min length.toNat (node.length.toNat - offset.toNat)) :
    (List.range n).map (fun i ↦ (readRound img node offset i).2) =
      chunk (fileContent img inode) offset.toNat length.toNat ∧
    ∀ i < n, (readRound img node offset i).1 < (node.length.toNat + 4095) / 4096 := by
  constructor
  · apply List.ext_getElem
    · simp only [chunk, List.length_map, List.length_range, List.length_take, List.length_drop,
        length_fileContent, hn, hnode]
    · intro j hj hj'
      simp only [List.length_map, List.length_range] at hj
      have hmod : (j + offset.toNat) % 2 ^ 32 = offset.toNat + j := by omega
      simp only [chunk, fileContent, readRound_eq, List.getElem_map, List.getElem_range,
        List.getElem_take, List.getElem_drop, hmod, hnode]
  · intro i hi
    have hmod : (i + offset.toNat) % 2 ^ 32 = offset.toNat + i := by omega
    simp only [readRound_eq, hmod]
    omega

theorem toInt_toInt32 {n : UInt32} (h : n.toNat < 2 ^ 31) : n.toInt32.toInt = n.toNat := by
  have hbits : n.toInt32.toInt = n.toBitVec.toInt := rfl
  rw [hbits, BitVec.toInt_eq_toNat_of_lt (by simpa using (by omega : 2 * n.toNat < 2 ^ 32))]
  rfl

/-- `read_data` does what it is there for on all arguments but those whose sum wraps
to an offset in the file: then it does not see the end of the file. -/
theorem read_data_iff (hw : img.WellFormed) : ReadsRight img inode offset length ↔
    ¬ (ValidRead img inode offset ∧ Wraps (img.inodes inode.toNat) offset length) := by
  by_cases hv : ValidRead img inode offset
  · have hlen := hw.length_le inode.toNat (UInt32.lt_iff_toNat_lt.mp hv.inode_lt)
    have hcall := readDataCall_valid hv length
    dsimp only at hcall
    constructor
    · rintro hright ⟨-, hwraps⟩
      have hbytes := congrArg List.length (hright.bytes hv)
      have hle := UInt32.le_iff_toNat_le.mp hv.offset_le
      have hbig := hwraps.1
      rw [hcall, readLength_wraps hwraps] at hbytes
      simp only [chunk, List.length_map, List.length_range, List.length_take, List.length_drop,
        length_fileContent] at hbytes
      omega
    · intro hno
      have hn := readLength_toNat hlen hv.offset_le fun hwraps ↦ hno ⟨hv, hwraps⟩
      obtain ⟨hbytes, hblocks⟩ := rounds_in_file rfl hlen hn
      have hvalue := toInt_toInt32 (n := readLength (img.inodes inode.toNat) offset length)
        (by omega)
      rw [hn] at hvalue
      refine ⟨iff_of_false ?_ (not_not.mpr hv), fun h ↦ absurd hv h, fun _ ↦ ?_, fun _ ↦ ?_, ?_⟩
      · simp only [hcall, hvalue]
        omega
      · simp only [hcall, hvalue]
      · simp only [hcall, List.map_map]
        exact hbytes
      · simp only [hcall, List.map_map]
        intro block hblock
        obtain ⟨i, hi, rfl⟩ := List.mem_map.mp hblock
        exact hblocks i (List.mem_range.mp hi)
  · have hcall := readDataCall_invalid hv length
    refine iff_of_true ⟨iff_of_true (by rw [hcall]) hv, fun _ ↦ by rw [hcall],
      fun h ↦ absurd h hv, fun h ↦ absurd h hv, ?_⟩ fun h ↦ hv h.1
    rw [hcall]
    intro block hblock
    cases hblock

/-- As long as nothing wraps, `read_data` stores what the file has from the offset on,
cut at its end. -/
theorem readData_chunk (hw : img.WellFormed) (hv : ValidRead img inode offset)
    (h : ¬ Wraps (img.inodes inode.toNat) offset length) :
    readData img inode offset length =
      some (chunk (fileContent img inode) offset.toNat length.toNat) := by
  have hlen := hw.length_le inode.toNat (UInt32.lt_iff_toNat_lt.mp hv.inode_lt)
  have hn := readLength_toNat hlen hv.offset_le h
  rw [readData_eq_call, if_neg, readDataCall_valid hv length]
  · simp only [List.map_map]
    exact congrArg some (rounds_in_file rfl hlen hn).1
  · rintro (hin | hoff)
    · exact UInt32.not_le.mpr hv.inode_lt hin
    · exact UInt32.not_lt.mpr hv.offset_le hoff

theorem toNat_ofInt (hn : 0 ≤ nbytes) (hn' : nbytes < 2 ^ 31) :
    (UInt32.ofInt nbytes).toNat = nbytes.toNat := by
  obtain ⟨n, rfl⟩ := Int.eq_ofNat_of_zero_le hn
  rw [UInt32.ofInt, UInt32.toNat_ofNat']
  omega

theorem readData_eq (hw : img.WellFormed) (hi : inode < img.numInodes)
    (hpos : offset.toNat ≤ (fileContent img inode).length) (hn : 0 ≤ nbytes)
    (hn' : nbytes < 2 ^ 31) : readData img inode offset (UInt32.ofInt nbytes) =
      some (chunk (fileContent img inode) offset.toNat nbytes.toNat) := by
  have hlen := hw.length_le inode.toNat (UInt32.lt_iff_toNat_lt.mp hi)
  have hsize := toNat_ofInt hn hn'
  rw [length_fileContent] at hpos
  have hv : ValidRead img inode offset := ⟨hi, UInt32.le_iff_toNat_le.mpr hpos⟩
  have hno : ¬ Wraps (img.inodes inode.toNat) offset (UInt32.ofInt nbytes) := by
    rintro ⟨hbig, -⟩
    omega
  rw [readData_chunk hw hv hno, hsize]

section Sample

theorem sampleImage_wellFormed : sampleImage.WellFormed where
  length_le := by decide
  block_lt := by
    intro i hi j _
    have hi' : i < 2 := hi
    have hblock : (sampleImage.inodes i).dataBlockNum j = i.toUInt32 := rfl
    rw [hblock]
    interval_cases i <;> decide
  inode_lt := by decide

end Sample

/-- A request from byte 1 on for as much as fits in 32 bits is not cut at the end of
the 28 bytes there are. -/
theorem read_data_runs_on : sampleImage.WellFormed ∧ ValidRead sampleImage 0 1 ∧
    (readDataCall sampleImage 0 1 0xFFFFFFFF).bytes.length = 0xFFFFFFFF ∧
    ¬ ReadsRight sampleImage 0 1 0xFFFFFFFF := by
  have hv : ValidRead sampleImage 0 1 := ⟨by decide, by decide⟩
  have hwraps : Wraps (sampleImage.inodes (0 : UInt32).toNat) 1 0xFFFFFFFF :=
    ⟨by decide, by decide⟩
  have hcall := readDataCall_valid hv 0xFFFFFFFF
  dsimp only at hcall
  refine ⟨sampleImage_wellFormed, hv, ?_, fun hright ↦ ?_⟩
  · rw [hcall, readLength_wraps hwraps]
    simp only [List.length_map, List.length_range]
    rfl
  · have hbytes := congrArg List.length (hright.bytes hv)
    rw [hcall, readLength_wraps hwraps] at hbytes
    simp only [chunk, List.length_map, List.length_range, List.length_take, List.length_drop,
      length_fileContent] at hbytes
    exact absurd hbytes (by decide)

theorem read_data_iff_sample : ReadsRight sampleImage 0 24 4 :=
  (read_data_iff sampleImage_wellFormed).mpr fun h ↦ absurd h.2.1 (by decide)

end ReadData

end ApollOS
