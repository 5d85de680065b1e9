import ApollOS.Files.FileData
import ApollOS.Files.Names

namespace ApollOS

open Function FixedField Reader

variable {b : Build} {k : Kernel} {img : Image} {inode offset : UInt32} {d : Dentry}
  {command : Command} {buffer : List UInt8} {p : ℕ}

structure ElfEntry (img : Image) (name : List UInt8) (d : Dentry) : Prop where
  listed : ∃ i < img.numDirEntries.toNat, d = img.dentries i
  name_eq : d.name = name
  inode_lt : d.inodeNum < img.numInodes
  magic : elfMagic <+: fileContent img d.inodeNum

/-- A program: a regular file of that name that starts like one and is long enough
to have an entry point. -/
structure Executable (img : Image) (name : List UInt8) (d : Dentry) : Prop extends
    ElfEntry img name d where
  regular : d.fileType = fileType
  length : 28 ≤ (fileContent img d.inodeNum).length

/-- As much of the page behind the user page is mapped as a file of that length runs
into. -/
def Fits (b : Build) (pg : Paging) (length : ℕ) : Prop :=
  ∀ v, virtualEnd ≤ v → v < executeStart + length → (walk b pg v).isSome

section ReadInto

theorem length_le (hw : img.WellFormed) (hi : inode < img.numInodes) :
    (fileContent img inode).length ≤ 1023 * 4096 := by
  rw [length_fileContent]
  exact hw.length_le inode.toNat (UInt32.lt_iff_toNat_lt.mp hi)

theorem readData_of_le {length : UInt32} (hw : img.WellFormed) (hi : inode < img.numInodes)
    (hoff : offset.toNat ≤ (fileContent img inode).length)
    (hsum : offset.toNat + length.toNat < 2 ^ 32) : readData img inode offset length =
      some (chunk (fileContent img inode) offset.toNat length.toNat) := by
  rw [length_fileContent] at hoff
  refine readData_chunk hw ⟨hi, UInt32.le_iff_toNat_le.mpr hoff⟩ fun hwraps ↦ ?_
  exact absurd hwraps.1 (Nat.not_le.mpr hsum)

theorem readInto_of_le (hw : img.WellFormed) (hi : inode < img.numInodes)
    (hoff : offset.toNat ≤ (fileContent img inode).length) (hlen : buffer.length = 4) :
    readInto img inode offset buffer = chunk (fileContent img inode) offset.toNat 4 ++
      buffer.drop (chunk (fileContent img inode) offset.toNat 4).length := by
  have hle := length_le hw hi
  have hsum : offset.toNat + (4 : UInt32).toNat < 2 ^ 32 := by
    rw [show (4 : UInt32).toNat = 4 from rfl]
    omega
  have hread := readData_of_le hw hi hoff hsum
  rw [readInto, hlen]
  exact congrArg (fun r : Option (List UInt8) ↦ r.getD [] ++ buffer.drop (r.getD []).length) hread

theorem readInto_of_ge (hi : img.numInodes ≤ inode) :
    readInto img inode offset buffer = buffer := by
  have hread : readData img inode offset buffer.length.toUInt32 = none := if_pos hi
  rw [readInto, hread]
  rfl

theorem readInto_magic_iff (hw : img.WellFormed) :
    readInto img inode 0 (List.replicate magicSize 0) = elfMagic ↔
      inode < img.numInodes ∧ elfMagic <+: fileContent img inode := by
  by_cases hi : inode < img.numInodes
  · have hread := readInto_of_le hw hi (show (0 : UInt32).toNat ≤ _ from Nat.zero_le _)
      (show (List.replicate magicSize (0 : UInt8)).length = 4 from List.length_replicate)
    have hchunk : chunk (fileContent img inode) (0 : UInt32).toNat 4 =
        (fileContent img inode).take 4 := rfl
    rw [hread, hchunk, and_iff_right hi, List.prefix_iff_eq_take, List.drop_replicate]
    rcases Nat.lt_or_ge (fileContent img inode).length 4 with hlt | hge
    · refine iff_of_false (fun h ↦ ?_) fun h ↦ ?_
      · have hzero : (0 : UInt8) ∈
            List.replicate (magicSize - ((fileContent img inode).take 4).length) (0 : UInt8) := by
          refine List.mem_replicate.mpr ⟨?_, rfl⟩
          rw [List.length_take, magicSize]
          omega
        have hmem : (0 : UInt8) ∈ elfMagic := h ▸ List.mem_append_right _ hzero
        exact absurd hmem (by decide)
      · have hlen := congrArg List.length h
        rw [List.length_take] at hlen
        simp only [elfMagic, List.length_cons, List.length_nil] at hlen
        omega
    · rw [List.length_take, Nat.min_eq_left hge, magicSize, Nat.sub_self, List.replicate_zero,
        List.append_nil]
      exact eq_comm
  · rw [readInto_of_ge (UInt32.not_lt.mp hi)]
    exact iff_of_false (by decide) fun h ↦ hi h.1

end ReadInto

section Command

theorem zero_notMem_commandWord : (0 : UInt8) ∉ commandWord command.text := by
  intro h
  exact absurd (List.mem_takeWhile_imp h) (by decide)

theorem content_commandWord {n : ℕ} :
    content 0 n (cstr (commandWord command.text)) = (commandWord command.text).take n :=
  content_getD zero_notMem_commandWord

/-- `execute` takes every word for "exit" that begins with it. -/
theorem isExit_iff : Kernel.isExit command = true ↔ ascii "exit" <+: commandWord command.text := by
  have hexit : content 0 4 (cstr (ascii "exit")) = ascii "exit" := by decide
  rw [Kernel.isExit, beq_iff_eq, strncmp_eq_zero_iff, content_commandWord, hexit,
    List.prefix_iff_eq_take]
  exact eq_comm

theorem program_iff (hw : img.WellFormed) (hd : img.Directory) : Program img command d ↔
    ElfEntry img ((commandWord command.text).take fileNameLength) d := by
  constructor
  · rintro ⟨hname, hmagic⟩
    obtain ⟨i, hi, rfl, hsame⟩ := readDentryByName_eq_some hname
    obtain ⟨hinode, helf⟩ := (readInto_magic_iff hw).mp hmagic
    rw [content_commandWord] at hsame
    exact ⟨⟨i, hi, rfl⟩, hsame, hinode, helf⟩
  · rintro ⟨⟨i, hi, rfl⟩, hsame, hinode, helf⟩
    refine ⟨hd.readDentryByName_eq hi ?_, (readInto_magic_iff hw).mpr ⟨hinode, helf⟩⟩
    rw [hsame, content_commandWord]

theorem Executable.program (h : Executable img (commandWord command.text) d) (hw : img.WellFormed)
    (hd : img.Directory) : Program img command d := by
  have hle : (commandWord command.text).length ≤ fileNameLength := by
    rw [← h.name_eq]
    exact length_content_le
  refine (program_iff hw hd).mpr ?_
  rw [List.take_of_length_le hle]
  exact h.toElfEntry

theorem entryPoint_eq (hw : img.WellFormed) (hi : d.inodeNum < img.numInodes)
    (hlen : 28 ≤ (fileContent img d.inodeNum).length) :
    entryPoint img d = le32 (cstr (fileContent img d.inodeNum)) 24 := by
  have hoff : (24 : UInt32).toNat ≤ (fileContent img d.inodeNum).length := by
    rw [show (24 : UInt32).toNat = 24 from rfl]
    omega
  have hread := readInto_of_le hw hi hoff (show elfMagic.length = 4 from rfl)
  have hbyte (j : ℕ) (hj : j < 4) :
      cstr (readInto img d.inodeNum 24 elfMagic) j =
        cstr (fileContent img d.inodeNum) (24 + j) := by
    have hlt : j < (chunk (fileContent img d.inodeNum) (24 : UInt32).toNat 4).length := by
      have hnat : (24 : UInt32).toNat = 24 := rfl
      simp only [chunk, List.length_take, List.length_drop]
      omega
    rw [hread, cstr, cstr, List.getD_eq_getElem?_getD, List.getD_eq_getElem?_getD,
      List.getElem?_append_left hlt, chunk, List.getElem?_take_of_lt hj, List.getElem?_drop]
    rfl
  simp only [entryPoint, le32, hbyte 0 (by decide), hbyte (0 + 1) (by decide),
    hbyte (0 + 2) (by decide), hbyte (0 + 3) (by decide)]

end Command

section Load

theorem readData_whole (hw : img.WellFormed) (hi : inode < img.numInodes) :
    readData img inode 0 fourMb.toUInt32 = some (fileContent img inode) := by
  have hle := length_le hw hi
  have hread := readData_of_le hw hi (show (0 : UInt32).toNat ≤ _ from Nat.zero_le _)
    (show (0 : UInt32).toNat + fourMb.toUInt32.toNat < 2 ^ 32 by decide)
  rw [hread]
  refine congrArg some (List.take_of_length_le ?_)
  rw [List.length_drop]
  exact (Nat.sub_le _ _).trans (hle.trans (by decide))

theorem walk_remap_behind {pg : Paging} {v : ℕ} (hv : virtualEnd ≤ v) :
    walk b (pg.remap virtualStart (userBlock p)) v = walk b pg v := by
  have hne : v / fourMb ≠ virtualStart / fourMb := by
    simp only [virtualEnd, virtualStart, fourMb] at *
    omega
  have hdir :
      (pg.remap virtualStart (userBlock p)).pageDir (v / fourMb) = pg.pageDir (v / fourMb) :=
    update_of_ne hne _ _
  rw [walk, walk, hdir]
  rfl

theorem load_isSome_iff_fits {pg : Paging} {xs : List UInt8} {m : Memory} (hp : p < maxProcesses) :
    (storeBytes b (pg.remap virtualStart (userBlock p)) xs executeStart m).isSome ↔
      Fits b pg xs.length := by
  rw [storeBytes_isSome_iff]
  constructor
  · intro h v hv hlt
    have hle : executeStart ≤ v := le_trans (by decide) hv
    have hi := h (v - executeStart) (by omega)
    rwa [Nat.add_sub_cancel' hle, walk_remap_behind hv] at hi
  · intro h i hi
    rcases Nat.lt_or_ge (executeStart + i) virtualEnd with hlt | hge
    · rw [walk_remap hp (le_trans (by decide) (Nat.le_add_right executeStart i)) hlt]
      rfl
    · rw [walk_remap_behind hge]
      exact h _ hge (by omega)

end Load

end ApollOS
