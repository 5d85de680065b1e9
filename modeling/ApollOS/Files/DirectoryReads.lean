import ApollOS.Files.DirectoryListing
import ApollOS.Files.FileData

namespace ApollOS

open Function FixedField

variable {b : Build} {k : Kernel} {p n : ℕ} {i : Fin maxFiles} {img : Image} {f : File}
  {inode pos : UInt32} {name : List UInt8} {nbytes value : ℤ} {bytes : List UInt8}

/-- The name at a position of the directory, behind whose entries there are none. -/
def Image.nameAt (img : Image) (pos : UInt32) : List UInt8 :=
  if img.numDirEntries ≤ pos then [] else (img.dentries pos.toNat).name

/-- A read of a name into a buffer of `nbytes` bytes counts what it has placed there. -/
structure CountsName (name : List UInt8) (nbytes value : ℤ) (bytes : List UInt8) : Prop where
  bounded : bytes.length ≤ max nbytes 0
  counted : 0 ≤ nbytes → value = min nbytes name.length ∧ value ≤ nbytes
  placed : 0 ≤ nbytes → bytes.take value.toNat = name.take value.toNat
  nothing : nbytes < 0 → bytes = []

theorem strncpy_take_of_le {src : ℕ → UInt8} {e : ℕ} (he : n ≤ e)
    (hn : (content 0 e src).length ≤ n) :
    (strncpy src n).take (content 0 e src).length = content 0 e src := by
  have hsame : content 0 n src = content 0 e src := by
    rw [← take_content he, List.take_of_length_le hn]
  rw [← hsame, strncpy_take]

theorem toNat_ofInt_neg (hn : nbytes < 0) (hn' : -2 ^ 31 ≤ nbytes) :
    0 < (UInt32.ofInt nbytes).toNat := by
  rw [UInt32.ofInt, UInt32.toNat_ofNat']
  omega

theorem dirRead_counts_iff (img : Image) (f : File) (nbytes : Int32) :
    CountsName (img.nameAt f.pos) nbytes.toInt (dirRead img f nbytes.toInt).2.1
        (dirRead img f nbytes.toInt).2.2 ↔
      img.numDirEntries ≤ f.pos ∨ (img.nameAt f.pos).length ≤ nbytes.toInt := by
  have hlow := nbytes.le_toInt
  have hhigh := nbytes.toInt_lt
  by_cases hend : img.numDirEntries ≤ f.pos
  · rw [Image.nameAt, if_pos hend, dirRead_end (UInt32.le_iff_toNat_le.mp hend)]
    refine iff_of_true ⟨?_, fun hn ↦ ⟨?_, hn⟩, fun _ ↦ rfl, fun _ ↦ rfl⟩ (.inl hend)
    · exact le_max_right _ _
    · exact (min_eq_right hn).symm
  have hpos : f.pos.toNat < img.numDirEntries.toNat :=
    UInt32.lt_iff_toNat_lt.mp (UInt32.not_le.mp hend)
  have hfull : (img.dentries f.pos.toNat).name.length ≤ fileNameLength := length_content_le
  rw [Image.nameAt, if_neg hend, dirRead_name hpos, or_iff_right hend]
  generalize hname : (img.dentries f.pos.toNat).name = name at hfull
  constructor
  · intro h
    rcases lt_or_ge nbytes.toInt 0 with hneg | hnonneg
    · have hlen := congrArg List.length (h.nothing hneg)
      have hcut : ¬ nbytes.toInt > (fileNameLength : ℤ) := by
        simp only [fileNameLength]
        omega
      rw [length_strncpy, if_neg hcut, List.length_nil] at hlen
      have hsome := toNat_ofInt_neg hneg hlow
      omega
    · exact (h.counted hnonneg).1.trans_le (min_le_left _ _)
  · intro hle
    obtain ⟨m, hcut, hm, hlen⟩ : ∃ m : ℕ, (UInt32.ofInt (if nbytes.toInt > fileNameLength then
        (fileNameLength : ℤ) else nbytes.toInt)).toNat = m ∧ m ≤ fileNameLength ∧
        name.length ≤ m ∧ m ≤ nbytes.toInt := by
      have hmax : fileNameLength = 32 := rfl
      split_ifs with hbig
      · exact ⟨fileNameLength, toNat_ofInt (by omega) (by omega), le_rfl, hfull, by omega⟩
      · exact ⟨nbytes.toInt.toNat, toNat_ofInt (by omega) hhigh, by omega, by omega, by omega⟩
    rw [hcut]
    refine ⟨?_, fun _ ↦ ⟨?_, ?_⟩, fun _ ↦ ?_, fun hneg ↦ ?_⟩
    · rw [length_strncpy]
      omega
    · exact (min_eq_right hle).symm
    · exact hle
    · have hshort : (img.dentries f.pos.toNat).name.length ≤ m := by
        rw [hname]
        exact hlen.1
      have hplaced := strncpy_take_of_le hm hshort
      rw [← Dentry.name, hname] at hplaced
      rw [Int.toNat_natCast, hplaced, List.take_length]
    · omega

theorem fdCall_dir (hopen : k.opened p i = some ⟨inode, pos, .dir⟩) (nbytes : ℤ) :
    k.fdCall b p (.readFd i.val true nbytes) =
      some (k.setFile p i (dirRead b.image ((k.pcb p).files i) nbytes).1,
        (dirRead b.image ((k.pcb p).files i) nbytes).2) := by
  have hops : ((k.pcb p).files i).fileops = .dir := (File.entry_eq_some hopen).2.2.2
  simp only [Kernel.fdCall, Kernel.readFd, Kernel.lookup_open hopen, hops, Bool.true_eq_false,
    if_false]

/-- A read of an open directory counts the bytes of the name it has placed in the buffer
exactly if there is no entry left or its name fits. -/
theorem dir_read_iff (hopen : k.opened p i = some ⟨inode, pos, .dir⟩) (nbytes : Int32) :
    (∃ k' value bytes,
      k.fdCall b p (.readFd i.val true nbytes.toInt) = some (k', value, bytes) ∧
      CountsName (b.image.nameAt pos) nbytes.toInt value bytes) ↔
    b.image.numDirEntries ≤ pos ∨ (b.image.nameAt pos).length ≤ nbytes.toInt := by
  have hpos : ((k.pcb p).files i).pos = pos := (File.entry_eq_some hopen).2.2.1
  have hiff := dirRead_counts_iff b.image ((k.pcb p).files i) nbytes
  rw [hpos] at hiff
  rw [← hiff, fdCall_dir hopen]
  constructor
  · rintro ⟨k', value, bytes, hsome, hcounts⟩
    obtain ⟨-, he⟩ := Prod.mk.inj (Option.some.inj hsome)
    obtain ⟨rfl, rfl⟩ := Prod.mk.inj he
    exact hcounts
  · intro hcounts
    exact ⟨_, _, _, rfl, hcounts⟩

section Sample

theorem sample_dot_opened : ∃ k k₁ inode, Boots sampleBuild sampleMachine k ∧
    k.fdCall sampleBuild 0 (.openFd (some (cstr (ascii ".")))) = some (k₁, 2, []) ∧
    k₁.opened 0 2 = some ⟨inode, 0, .dir⟩ := by
  obtain ⟨k, k₁, hb, hopen, -⟩ := sample_opened dot_found
  have hlisting := Listing.opened_now (i := 2) (boots_forest hb) (boots_live hb) dot_found hopen
  obtain ⟨inode, pos, hfile, hpos⟩ := hlisting.opened
  have hzero : pos = 0 := UInt32.toNat_inj.mp (by simpa using hpos)
  exact ⟨k, k₁, inode, hb, hopen, hzero ▸ hfile⟩

/-- Asked for no bytes of "." the read counts one, and asked for a negative number of
bytes it fills almost all of memory. -/
theorem short_read_miscounts : ∃ k k₁, Boots sampleBuild sampleMachine k ∧
    k.fdCall sampleBuild 0 (.openFd (some (cstr (ascii ".")))) = some (k₁, 2, []) ∧
    (∃ k₂, k₁.fdCall sampleBuild 0 (.readFd 2 true 0) = some (k₂, 1, [])) ∧
    (¬ ∃ k' value bytes,
      k₁.fdCall sampleBuild 0 (.readFd 2 true (0 : Int32).toInt) = some (k', value, bytes) ∧
      CountsName (ascii ".") (0 : Int32).toInt value bytes) ∧
    (∃ k₂ bytes, k₁.fdCall sampleBuild 0 (.readFd 2 true (-1)) = some (k₂, 1, bytes) ∧
      bytes.length = 2 ^ 32 - 1) ∧
    ¬ ∃ k' value bytes,
      k₁.fdCall sampleBuild 0 (.readFd 2 true (-1 : Int32).toInt) = some (k', value, bytes) ∧
      CountsName (ascii ".") (-1 : Int32).toInt value bytes := by
  obtain ⟨k, k₁, inode, hb, hopen, hfile⟩ := sample_dot_opened
  have hpos : ((k₁.pcb 0).files 2).pos = 0 := (File.entry_eq_some hfile).2.2.1
  have hread (nbytes : ℤ) : ∃ k₂ bytes,
      k₁.fdCall sampleBuild 0 (.readFd 2 true nbytes) = some (k₂, 1, bytes) ∧
      bytes.length = (UInt32.ofInt (if nbytes > fileNameLength then (fileNameLength : ℤ)
        else nbytes)).toNat := by
    have hcall := fdCall_dir (b := sampleBuild) (i := 2) hfile nbytes
    have hfirst : ((k₁.pcb 0).files 2).pos.toNat < sampleImage.numDirEntries.toNat := by
      rw [hpos]
      decide
    have hname := dirRead_name hfirst nbytes
    rw [show sampleBuild.image = sampleImage from rfl, hname, hpos] at hcall
    exact ⟨_, _, hcall, length_strncpy⟩
  obtain ⟨k₂, bytes, hcall, hlen⟩ := hread 0
  obtain ⟨k₃, bytes', hcall', hlen'⟩ := hread (-1)
  obtain rfl : bytes = [] := List.length_eq_zero_iff.mp hlen
  refine ⟨k, k₁, hb, hopen, ⟨k₂, hcall⟩, ?_, ⟨k₃, bytes', hcall', hlen'⟩, ?_⟩
  · rintro ⟨k', value, bytes, hsome, hcounts⟩
    obtain ⟨-, he⟩ := Prod.mk.inj (Option.some.inj (hcall.symm.trans hsome))
    obtain ⟨rfl, -⟩ := Prod.mk.inj he
    exact absurd (hcounts.counted (by decide)).2 (by decide)
  · rintro ⟨k', value, bytes, hsome, hcounts⟩
    obtain ⟨-, he⟩ := Prod.mk.inj (Option.some.inj (hcall'.symm.trans hsome))
    obtain ⟨-, rfl⟩ := Prod.mk.inj he
    rw [hcounts.nothing (by decide)] at hlen'
    exact absurd hlen' (by decide)

theorem dir_read_iff_sample : ∃ (k₁ k₂ : Kernel) (value : ℤ) (bytes : List UInt8),
    k₁.fdCall sampleBuild 0 (.readFd 2 true 2) = some (k₂, value, bytes) ∧
    CountsName (ascii ".") 2 value bytes := by
  obtain ⟨k, k₁, inode, hb, hopen, hfile⟩ := sample_dot_opened
  obtain ⟨k₂, value, bytes, hcall, hcounts⟩ :=
    (dir_read_iff (b := sampleBuild) (i := 2) hfile 2).mpr (by decide)
  exact ⟨k₁, k₂, value, bytes, hcall, hcounts⟩

end Sample

end ApollOS
