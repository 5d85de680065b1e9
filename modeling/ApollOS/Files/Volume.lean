import ApollOS.Files.FileData
import ApollOS.Files.Names
import ApollOS.Foundation.Records
import ApollOS.Foundation.Words
import Mathlib.Data.List.GetD

namespace ApollOS

open FixedField Records

/-- What a directory entry stands for. -/
inductive Contents
  | rtc
  | directory
  | file (bytes : List UInt8)

namespace Contents

def code : Contents → UInt32
  | .rtc => rtcType
  | .directory => dirType
  | .file _ => fileType

def payload : Contents → Option (List UInt8)
  | .file bytes => some bytes
  | _ => none

end Contents

/-- What a file system image is made to hold. -/
structure Volume where
  entries : List (List UInt8 × Contents)
  count_le : entries.length ≤ 63
  name_ne : ∀ e ∈ entries, e.1 ≠ []
  name_le : ∀ e ∈ entries, e.1.length ≤ fileNameLength
  name_nul : ∀ e ∈ entries, 0 ∉ e.1
  nodup : (entries.map Prod.fst).Nodup
  size_le : ∀ e ∈ entries, ∀ bytes ∈ e.2.payload, bytes.length ≤ 1023 * 4096

def bytes32 (n : UInt32) : List UInt8 :=
  [n.toUInt8, (n >>> 8).toUInt8, (n >>> 16).toUInt8, (n >>> 24).toUInt8]

def blockCount (bytes : List UInt8) : ℕ := (bytes.length + 4095) / 4096

def blocksOf (files : List (List UInt8)) : ℕ := (files.map blockCount).sum

def paddedFile (bytes : List UInt8) : List UInt8 := field 0 (blockCount bytes * 4096) bytes

def inodeBytes (start : ℕ) (bytes : List UInt8) : List UInt8 :=
  field 0 4096 (bytes32 bytes.length.toUInt32 ++
    (List.range (blockCount bytes)).flatMap fun j ↦ bytes32 (start + j).toUInt32)

namespace Volume

variable (v : Volume)

def files : List (List UInt8) := v.entries.filterMap fun e ↦ e.2.payload

/-- The files get inodes, and their blocks places, in the order of the directory. -/
def inodeOf (i : ℕ) : ℕ := ((v.entries.take i).filterMap fun e ↦ e.2.payload).length

def dentryBytes (i : ℕ) : List UInt8 :=
  let e := v.entries.getD i ([], .rtc)
  field 0 64 (field 0 fileNameLength e.1 ++ (bytes32 e.2.code ++ bytes32 (v.inodeOf i).toUInt32))

def bootBlock : List UInt8 :=
  field 0 4096 (field 0 64 (bytes32 v.entries.length.toUInt32 ++ (bytes32 v.files.length.toUInt32 ++
    bytes32 (blocksOf v.files).toUInt32)) ++ (List.range v.entries.length).flatMap v.dentryBytes)

def encode : List UInt8 :=
  v.bootBlock ++ ((List.range v.files.length).flatMap (fun i ↦
    inodeBytes (blocksOf (v.files.take i)) (v.files.getD i [])) ++ v.files.flatMap paddedFile)

/-- The boot loader has left the image at an address. -/
structure LoadedAt (mem : Memory) (base : UInt32) : Prop where
  fits : base.toNat + v.encode.length ≤ 2 ^ 32
  bytes : Spells (fun i ↦ mem (base.toNat + i : ℕ)) v.encode

end Volume

section Words

variable {s : ℕ → UInt8} {n : UInt32} {a c e : ℕ}

theorem le32_bytes32 (h : Spells s (bytes32 n)) : le32 s 0 = n := by
  have h0 : s 0 = n.toUInt8 := h 0 (by simp [bytes32])
  have h1 : s (0 + 1) = (n >>> 8).toUInt8 := h 1 (by simp [bytes32])
  have h2 : s (0 + 2) = (n >>> 16).toUInt8 := h 2 (by simp [bytes32])
  have h3 : s (0 + 3) = (n >>> 24).toUInt8 := h 3 (by simp [bytes32])
  rw [le32, h0, h1, h2, h3]
  exact Words.join_bytes

theorem le32_add : le32 s a = le32 (fun i ↦ s (a + i)) 0 := rfl

theorem length_bytes32 : (bytes32 n).length = 4 := rfl

end Words

section Sizes

variable {start : ℕ} {file : List UInt8} {files : List (List UInt8)}

theorem length_le_blocks : file.length ≤ blockCount file * 4096 := by
  rw [blockCount]
  omega

theorem length_paddedFile : (paddedFile file).length = blockCount file * 4096 :=
  length_field length_le_blocks

theorem length_paddedFiles : (files.flatMap paddedFile).length = blocksOf files * 4096 := by
  induction files with
  | nil => rfl
  | cons file files ih =>
    rw [List.flatMap_cons, List.length_append, ih, length_paddedFile, blocksOf, blocksOf,
      List.map_cons, List.sum_cons, Nat.add_mul]

theorem blocksOf_le {i : ℕ} (hi : i < files.length) :
    blocksOf (files.take i) + blockCount files[i] ≤ blocksOf files := by
  have hsplit : files = files.take i ++ files[i] :: files.drop (i + 1) := by
    rw [List.getElem_cons_drop, List.take_append_drop]
  calc blocksOf (files.take i) + blockCount files[i]
      ≤ blocksOf (files.take i) + (blockCount files[i] + blocksOf (files.drop (i + 1))) := by omega
    _ = blocksOf (files.take i ++ files[i] :: files.drop (i + 1)) := by
      simp only [blocksOf, List.map_append, List.map_cons, List.sum_append, List.sum_cons]
    _ = blocksOf files := by rw [← hsplit]

theorem length_blockTable {n : ℕ} {f : ℕ → UInt32} :
    ((List.range n).flatMap fun j ↦ bytes32 (f j)).length = n * 4 := by
  rw [length_flatMap_of fun _ _ ↦ length_bytes32, List.length_range]

theorem length_inodeBytes (h : file.length ≤ 1023 * 4096) :
    (inodeBytes start file).length = 4096 := by
  refine length_field ?_
  rw [List.length_append, length_bytes32, length_blockTable, blockCount]
  omega

end Sizes

namespace Volume

variable {v : Volume}

theorem size_of_mem {file : List UInt8} (h : file ∈ v.files) : file.length ≤ 1023 * 4096 := by
  obtain ⟨e, he, hbytes⟩ := List.mem_filterMap.mp h
  exact v.size_le e he file hbytes

theorem length_dentryBytes {i : ℕ} (hi : i < v.entries.length) :
    (v.dentryBytes i).length = 64 := by
  have hname : (v.entries.getD i ([], .rtc)).1.length ≤ fileNameLength := by
    rw [List.getD_eq_getElem _ _ hi]
    exact v.name_le _ (List.getElem_mem hi)
  refine length_field ?_
  rw [List.length_append, List.length_append, length_field hname, length_bytes32, length_bytes32]
  decide

theorem length_bootBlock : v.bootBlock.length = 4096 := by
  have hcount := v.count_le
  refine length_field ?_
  rw [List.length_append, length_flatMap_of fun i hi ↦ length_dentryBytes (List.mem_range.mp hi),
    List.length_range, length_field]
  · omega
  · simp [length_bytes32]

theorem length_inodeTable : ((List.range v.files.length).flatMap fun i ↦
    inodeBytes (blocksOf (v.files.take i)) (v.files.getD i [])).length = v.files.length * 4096 := by
  rw [length_flatMap_of fun i hi ↦ length_inodeBytes ?_, List.length_range]
  have hi' := List.mem_range.mp hi
  rw [List.getD_eq_getElem _ _ hi']
  exact size_of_mem (List.getElem_mem hi')

theorem length_encode : v.encode.length = 4096 + (v.files.length * 4096 +
    blocksOf v.files * 4096) := by
  rw [encode, List.length_append, List.length_append, length_bootBlock, length_inodeTable,
    length_paddedFiles]

end Volume

section Loaded

variable {v : Volume} {mem : Memory} {base : UInt32} {i : ℕ}

def imageByte (mem : Memory) (base : UInt32) (offset : ℕ) : UInt8 :=
  mem ((base.toNat + offset) % 2 ^ 32 : ℕ)

namespace Volume.LoadedAt

variable (h : v.LoadedAt mem base)

include h

theorem spells : Spells (imageByte mem base) v.encode := by
  intro i hi
  have hfits := h.fits
  rw [imageByte, Nat.mod_eq_of_lt (by omega)]
  exact h.bytes i hi

theorem files_lt : v.files.length * 4096 + blocksOf v.files * 4096 < 2 ^ 32 := by
  have hfits := h.fits
  rw [length_encode] at hfits
  omega

theorem boot : Spells (imageByte mem base) v.bootBlock := h.spells.left

theorem header : Spells (imageByte mem base) (bytes32 v.entries.length.toUInt32 ++
    (bytes32 v.files.length.toUInt32 ++ bytes32 (blocksOf v.files).toUInt32)) :=
  h.boot.record.left.record

theorem numDirEntries : (initRofs mem base).numDirEntries.toNat = v.entries.length := by
  have hword := le32_bytes32 h.header.left
  have hcount := v.count_le
  have hdef : (initRofs mem base).numDirEntries = le32 (imageByte mem base) 0 := rfl
  rw [hdef, hword, Nat.toUInt32_eq, UInt32.toNat_ofNat', Nat.mod_eq_of_lt (by omega)]

theorem numInodes : (initRofs mem base).numInodes.toNat = v.files.length := by
  have hword := le32_bytes32 (h.header.right_at length_bytes32).left
  have hlt := h.files_lt
  have hdef : (initRofs mem base).numInodes = le32 (imageByte mem base) 4 := rfl
  rw [hdef, le32_add, hword, Nat.toUInt32_eq, UInt32.toNat_ofNat', Nat.mod_eq_of_lt (by omega)]

theorem numDataBlocks : (initRofs mem base).numDataBlocks.toNat = blocksOf v.files := by
  have hword := le32_bytes32 ((h.header.right_at length_bytes32).right_at length_bytes32)
  have hlt := h.files_lt
  have hdef : (initRofs mem base).numDataBlocks = le32 (imageByte mem base) (4 + 4) := rfl
  rw [hdef, le32_add]
  simp only [Nat.add_assoc]
  rw [hword, Nat.toUInt32_eq, UInt32.toNat_ofNat', Nat.mod_eq_of_lt (by omega)]

theorem dentry (hi : i < v.entries.length) :
    Spells ((initRofs mem base).dentries i).bytes (field 0 fileNameLength v.entries[i].1 ++
      (bytes32 v.entries[i].2.code ++ bytes32 (v.inodeOf i).toUInt32)) := by
  have hcounts : (field 0 64 (bytes32 v.entries.length.toUInt32 ++
      (bytes32 v.files.length.toUInt32 ++ bytes32 (blocksOf v.files).toUInt32)) :
        List UInt8).length = 64 :=
    length_field (by simp only [List.length_append, length_bytes32]; decide)
  have hentry := (h.boot.record.right_at hcounts).table_range
    (fun i hi ↦ length_dentryBytes hi) hi
  rw [dentryBytes, List.getD_eq_getElem _ _ hi] at hentry
  exact hentry.record

theorem name (hi : i < v.entries.length) :
    ((initRofs mem base).dentries i).name = v.entries[i].1 := by
  have hmem := List.getElem_mem hi
  have hle := v.name_le _ hmem
  have hspells := (h.dentry hi).left
  have hchars (j : ℕ) (hj : j < fileNameLength) :
      ((initRofs mem base).dentries i).fileName j = v.entries[i].1.getD j 0 := by
    rcases Nat.lt_or_ge j v.entries[i].1.length with hin | hout
    · rw [List.getD_eq_getElem _ _ hin]
      exact hspells.record j hin
    · rw [List.getD_eq_default _ _ hout]
      exact hspells.blank hout hj
  have hcontent : content 0 fileNameLength ((initRofs mem base).dentries i).fileName =
      content 0 fileNameLength fun j ↦ v.entries[i].1.getD j 0 := by
    rw [content, content]
    exact congrArg _ (List.map_congr_left fun j hj ↦ hchars j (List.mem_range.mp hj))
  rw [Dentry.name, hcontent, content_getD (v.name_nul _ hmem), List.take_of_length_le hle]

theorem fileType (hi : i < v.entries.length) :
    ((initRofs mem base).dentries i).fileType = v.entries[i].2.code := by
  have hle := v.name_le _ (List.getElem_mem hi)
  rw [Dentry.fileType, le32_add]
  exact le32_bytes32 ((h.dentry hi).right_at (length_field hle)).left

theorem inodeNum (hi : i < v.entries.length) :
    ((initRofs mem base).dentries i).inodeNum.toNat = v.inodeOf i := by
  have hle := v.name_le _ (List.getElem_mem hi)
  have hword := le32_bytes32
    (((h.dentry hi).right_at (length_field hle)).right_at length_bytes32)
  have hlt : v.inodeOf i < 2 ^ 32 := by
    have hcount := v.count_le
    have hfew : v.inodeOf i ≤ (v.entries.take i).length := List.length_filterMap_le _ _
    rw [List.length_take] at hfew
    omega
  have hdef : ((initRofs mem base).dentries i).inodeNum =
      le32 ((initRofs mem base).dentries i).bytes (fileNameLength + 4) := rfl
  rw [hdef, le32_add]
  simp only [Nat.add_assoc] at hword ⊢
  rw [hword, Nat.toUInt32_eq, UInt32.toNat_ofNat', Nat.mod_eq_of_lt hlt]

theorem inode (hi : i < v.files.length) :
    ((initRofs mem base).inodes i).length.toNat = v.files[i].length ∧
      ∀ j < blockCount v.files[i], (((initRofs mem base).inodes i).dataBlockNum j).toNat =
        blocksOf (v.files.take i) + j := by
  have hsize := size_of_mem (List.getElem_mem hi)
  have htable := ((h.spells.right_at length_bootBlock).left.table_range (fun i hi ↦ by
    rw [List.getD_eq_getElem _ _ hi]
    exact length_inodeBytes (size_of_mem (List.getElem_mem hi))) hi)
  rw [List.getD_eq_getElem _ _ hi] at htable
  have hrecord := htable.record
  constructor
  · have hword := le32_bytes32 hrecord.left
    have hdef : ((initRofs mem base).inodes i).length =
        le32 (imageByte mem base) (4096 + i * 4096) := rfl
    rw [hdef, le32_add]
    simp only [Nat.add_assoc]
    rw [hword, Nat.toUInt32_eq, UInt32.toNat_ofNat', Nat.mod_eq_of_lt (by omega)]
  · intro j hj
    have hword := le32_bytes32 ((hrecord.right_at length_bytes32).table_range
      (fun _ _ ↦ length_bytes32) hj)
    have hdef : ((initRofs mem base).inodes i).dataBlockNum j =
        le32 (imageByte mem base) (4096 + (i * 4096 + (4 + j * 4))) := rfl
    have hlt : blocksOf (v.files.take i) + j < 2 ^ 32 := by
      have hblocks := blocksOf_le hi
      have hfits := h.files_lt
      omega
    rw [hdef, le32_add]
    simp only [Nat.add_assoc]
    rw [hword, Nat.toUInt32_eq, UInt32.toNat_ofNat', Nat.mod_eq_of_lt hlt]

theorem fileByte (hi : i < v.files.length) {j : ℕ} (hj : j < v.files[i].length) :
    ApollOS.fileByte (initRofs mem base) ((initRofs mem base).inodes i) j = v.files[i][j] := by
  have hblock : j / 4096 < blockCount v.files[i] := by
    rw [blockCount]
    omega
  have hnum := (h.inode hi).2 _ hblock
  have hsplit : v.files = v.files.take i ++ v.files[i] :: v.files.drop (i + 1) := by
    rw [List.getElem_cons_drop, List.take_append_drop]
  have hdata : Spells (fun j ↦ imageByte mem base (4096 + (v.files.length * 4096 + j)))
      ((v.files.take i ++ v.files[i] :: v.files.drop (i + 1)).flatMap paddedFile) := by
    rw [← hsplit]
    exact (h.spells.right_at length_bootBlock).right_at length_inodeTable
  have hbyte := hdata.part.record j hj
  rw [length_paddedFiles] at hbyte
  rw [← hbyte]
  have hdef : ApollOS.fileByte (initRofs mem base) ((initRofs mem base).inodes i) j =
      imageByte mem base (4096 + ((initRofs mem base).numInodes.toNat * 4096 +
        ((((initRofs mem base).inodes i).dataBlockNum (j / 4096)).toNat * 4096 + j % 4096))) := rfl
  rw [hdef, h.numInodes, hnum]
  refine congrArg (imageByte mem base) ?_
  omega

theorem fileContent {inode : UInt32} (hi : inode.toNat < v.files.length) :
    ApollOS.fileContent (initRofs mem base) inode = v.files[inode.toNat] := by
  have hlen := (h.inode hi).1
  rw [ApollOS.fileContent, hlen]
  refine List.ext_getElem (by simp) fun j hj hj' ↦ ?_
  rw [List.getElem_map, List.getElem_range]
  exact h.fileByte hi hj'

end Volume.LoadedAt

theorem Volume.file_at (hi : i < v.entries.length) {bytes : List UInt8}
    (he : v.entries[i].2 = .file bytes) : v.files[v.inodeOf i]? = some bytes := by
  have hsplit : v.entries = v.entries.take i ++ v.entries[i] :: v.entries.drop (i + 1) := by
    rw [List.getElem_cons_drop, List.take_append_drop]
  have hbytes : (fun e : List UInt8 × Contents ↦ e.2.payload) v.entries[i] = some bytes :=
    congrArg Contents.payload he
  have hfiles : v.files = (v.entries.take i).filterMap (fun e ↦ e.2.payload) ++
      bytes :: (v.entries.drop (i + 1)).filterMap fun e ↦ e.2.payload := by
    have hall : v.files = (v.entries.take i ++ v.entries[i] ::
        v.entries.drop (i + 1)).filterMap fun e ↦ e.2.payload := by
      rw [← hsplit]
      rfl
    rw [hall, List.filterMap_append,
      List.filterMap_cons_some (f := fun e : List UInt8 × Contents ↦ e.2.payload) hbytes]
  rw [hfiles, Volume.inodeOf, List.getElem?_append_right le_rfl, Nat.sub_self]
  rfl

namespace Volume.LoadedAt

variable (h : v.LoadedAt mem base)

include h

theorem fileContent_at (hi : i < v.entries.length) {bytes : List UInt8}
    (he : v.entries[i].2 = .file bytes) :
    ((initRofs mem base).dentries i).inodeNum < (initRofs mem base).numInodes ∧
      ApollOS.fileContent (initRofs mem base) ((initRofs mem base).dentries i).inodeNum =
        bytes := by
  obtain ⟨hlt, hfile⟩ := List.getElem?_eq_some_iff.mp (v.file_at hi he)
  have hnum := h.inodeNum hi
  have hlt' : ((initRofs mem base).dentries i).inodeNum.toNat < v.files.length := by
    rwa [hnum]
  refine ⟨UInt32.lt_iff_toNat_lt.mpr (by rwa [h.numInodes]), ?_⟩
  rw [h.fileContent hlt', ← hfile]
  simp only [hnum]

theorem wellFormed : (initRofs mem base).WellFormed where
  length_le i hi := by
    rw [h.numInodes] at hi
    rw [(h.inode hi).1]
    exact size_of_mem (List.getElem_mem hi)
  block_lt i hi j hj := by
    rw [h.numInodes] at hi
    obtain ⟨hlen, hblock⟩ := h.inode hi
    rw [hlen] at hj
    have hcount : j < blockCount v.files[i] := by
      rw [blockCount]
      omega
    rw [UInt32.lt_iff_toNat_lt, hblock j hcount, h.numDataBlocks]
    have hle := blocksOf_le hi
    omega
  inode_lt i hi htype := by
    rw [h.numDirEntries] at hi
    rw [h.fileType hi] at htype
    cases he : v.entries[i].2 with
    | rtc =>
      rw [he] at htype
      exact absurd htype (by decide)
    | directory =>
      rw [he] at htype
      exact absurd htype (by decide)
    | file bytes => exact (h.fileContent_at hi he).1

theorem directory : (initRofs mem base).Directory where
  named i hi := by
    rw [h.numDirEntries] at hi
    rw [h.name hi]
    exact v.name_ne _ (List.getElem_mem hi)
  distinct i hi j hj hsame := by
    rw [h.numDirEntries] at hi hj
    rw [h.name hi, h.name hj] at hsame
    have hi' : i < (v.entries.map Prod.fst).length := by rwa [List.length_map]
    have hj' : j < (v.entries.map Prod.fst).length := by rwa [List.length_map]
    have hnames : (v.entries.map Prod.fst)[i] = (v.entries.map Prod.fst)[j] := by
      rwa [List.getElem_map, List.getElem_map]
    exact v.nodup.getElem_inj_iff.mp hnames

end Volume.LoadedAt

/-- What an image was made to hold is what the kernel finds in it: it is in order, every
name leads to its own entry and every file to its bytes, and no other name to anything. -/
theorem volume_round_trip (h : v.LoadedAt mem base) :
    (initRofs mem base).WellFormed ∧ (initRofs mem base).Directory ∧
    (initRofs mem base).numDirEntries.toNat = v.entries.length ∧
    (∀ i (hi : i < v.entries.length), ∃ d,
      readDentryByIndex (initRofs mem base) i.toUInt32 = some d ∧
      (∀ fname, Points fname v.entries[i].1 →
        readDentryByName (initRofs mem base) fname = some d) ∧
      d.name = v.entries[i].1 ∧ d.fileType = v.entries[i].2.code ∧
      ∀ bytes, v.entries[i].2 = .file bytes → ∀ offset : UInt32,
        (offset.toNat ≤ bytes.length → ∀ nbytes : ℤ, 0 ≤ nbytes → nbytes < 2 ^ 31 →
          readData (initRofs mem base) d.inodeNum offset (UInt32.ofInt nbytes) =
            some ((bytes.drop offset.toNat).take nbytes.toNat)) ∧
        (bytes.length < offset.toNat → ∀ length,
          readData (initRofs mem base) d.inodeNum offset length = none)) ∧
    ∀ fname text, Points fname text → (∀ e ∈ v.entries, e.1 ≠ text.take fileNameLength) →
      readDentryByName (initRofs mem base) fname = none := by
  have hcount := v.count_le
  refine ⟨h.wellFormed, h.directory, h.numDirEntries, fun i hi ↦ ?_, fun fname text hp hno ↦ ?_⟩
  · have hindex : i.toUInt32.toNat = i := by
      rw [Nat.toUInt32_eq, UInt32.toNat_ofNat', Nat.mod_eq_of_lt (by omega)]
    refine ⟨(initRofs mem base).dentries i, ?_, fun fname hp ↦ ?_, h.name hi, h.fileType hi,
      fun bytes he offset ↦ ⟨fun hoff nbytes hn hn' ↦ ?_, fun hoff length ↦ ?_⟩⟩
    · rw [readDentryByIndex, hindex, if_neg]
      rw [ge_iff_le, UInt32.le_iff_toNat_le, hindex, h.numDirEntries]
      omega
    · refine h.directory.readDentryByName_eq (by rwa [h.numDirEntries]) ?_
      rw [h.name hi, hp.content, List.take_of_length_le (v.name_le _ (List.getElem_mem hi))]
    · obtain ⟨hlt, hcontent⟩ := h.fileContent_at hi he
      rw [readData_eq h.wellFormed hlt (by rwa [hcontent]) hn hn', hcontent]
      rfl
    · obtain ⟨hlt, hcontent⟩ := h.fileContent_at hi he
      rw [← hcontent, length_fileContent] at hoff
      rw [readData, if_neg (UInt32.not_le.mpr hlt), if_pos (UInt32.lt_iff_toNat_lt.mpr hoff)]
  · by_contra hsome
    obtain ⟨d, hd⟩ := Option.ne_none_iff_exists'.mp hsome
    obtain ⟨i, hi, rfl, hname⟩ := readDentryByName_eq_some hd
    rw [h.numDirEntries] at hi
    rw [h.name hi, hp.content] at hname
    exact hno _ (List.getElem_mem hi) hname

section Sample

def sampleVolume : Volume where
  entries := [(ascii ".", .directory), (ascii "hello", .file (ascii "hi")),
    (ascii "rtc", .rtc), (ascii "notes", .file (ascii "a b"))]
  count_le := by decide
  name_ne := by decide
  name_le := by decide
  name_nul := by decide
  nodup := by decide
  size_le := by decide

theorem sampleVolume_loaded : sampleVolume.LoadedAt
    (fun a ↦ sampleVolume.encode.getD (a - 0x412000).toNat 0) 0x412000 where
  fits := by
    rw [Volume.length_encode]
    decide
  bytes i hi := by
    have hsub : (((0x412000 : UInt32).toNat + i : ℕ) - 0x412000 : ℤ).toNat = i := by
      have hbase : (0x412000 : UInt32).toNat = 0x412000 := by decide
      omega
    dsimp only
    rw [hsub, List.getD_eq_getElem _ _ hi]

theorem volume_round_trip_sample : ∃ img d, img = initRofs
      (fun a ↦ sampleVolume.encode.getD (a - 0x412000).toNat 0) 0x412000 ∧
    readDentryByName img (cstr (ascii "notes")) = some d ∧
    readData img d.inodeNum 2 (UInt32.ofInt 9) = some (ascii "b") ∧
    readData img d.inodeNum 4 1 = none := by
  obtain ⟨-, -, -, hentries, -⟩ := volume_round_trip sampleVolume_loaded
  obtain ⟨d, -, hname, -, -, hread⟩ := hentries 3 (by decide)
  have hnotes : Points (cstr (ascii "notes")) (ascii "notes") := ⟨by decide, fun _ _ ↦ rfl⟩
  exact ⟨_, d, rfl, hname _ hnotes,
    ((hread (ascii "a b") rfl 2).1 (by decide) 9 (by decide) (by decide)).trans (by decide),
    (hread (ascii "a b") rfl 4).2 (by decide) 1⟩

end Sample

end Loaded

end ApollOS
