import ApollOS.Foundation.FixedField
import ApollOS.Process.Boot

namespace ApollOS

open FixedField

variable {img : Image} {fname : ℕ → UInt8} {d out : Dentry} {n i : ℕ} {text : List UInt8}

/-- A pointer to a string: the text, and the NUL that ends it. -/
structure Points (src : ℕ → UInt8) (text : List UInt8) : Prop where
  nonzero : 0 ∉ text
  agrees : ∀ i ≤ text.length, src i = cstr text i

/-- The name of a directory entry, which has no NUL if it takes up the whole field. -/
def Dentry.name (d : Dentry) : List UInt8 := content 0 fileNameLength d.fileName

/-- A directory in which every entry has a name of its own. -/
structure Image.Directory (img : Image) : Prop where
  named : ∀ i < img.numDirEntries.toNat, (img.dentries i).name ≠ []
  distinct : ∀ i < img.numDirEntries.toNat, ∀ j < img.numDirEntries.toNat,
    (img.dentries i).name = (img.dentries j).name → i = j

/-- What is left of a `dentry_t` when an entry has been copied over it. -/
def Dentry.copyTo (d out : Dentry) : Dentry :=
  ⟨fun i ↦ if i < 64 then d.bytes i else out.bytes i⟩

def readDentryByNameTo (img : Image) (fname : ℕ → UInt8) (out : Dentry) : ℤ × Dentry :=
  match readDentryByName img fname with
  | none => (-1, out)
  | some d => (0, d.copyTo out)

def readDentryByIndexTo (img : Image) (index : UInt32) (out : Dentry) : ℤ × Dentry :=
  match readDentryByIndex img index with
  | none => (-1, out)
  | some d => (0, d.copyTo out)

theorem toInt8_sub_eq_zero_iff {c c' : UInt8} :
    c.toInt8.toInt - c'.toInt8.toInt = 0 ↔ c = c' := by
  rw [Int.sub_eq_zero, Int8.toInt_inj]
  constructor
  · intro h
    have hback := congrArg Int8.toUInt8 h
    rwa [UInt8.toUInt8_toInt8, UInt8.toUInt8_toInt8] at hback
  · rintro rfl
    rfl

theorem strncmpFrom_eq_zero_iff {s t : ℕ → UInt8} : strncmpFrom s t n i = 0 ↔
    content 0 n (fun j ↦ s (j + i)) = content 0 n fun j ↦ t (j + i) := by
  induction n generalizing i with
  | zero => exact iff_of_true rfl rfl
  | succ n ih =>
    rw [strncmpFrom, content_succ_eq_iff]
    simp only [Nat.zero_add, Nat.add_right_comm _ 1 i, Nat.add_assoc]
    by_cases heq : s i = t i
    · by_cases hzero : s i = 0
      · rw [if_pos (.inr hzero), heq]
        simp [← heq, hzero]
      · rw [if_neg (by simp [heq, heq ▸ hzero]), ih]
        simp [heq, heq ▸ hzero]
    · rw [if_pos (.inl heq), toInt8_sub_eq_zero_iff]
      simp [heq]

theorem strncmp_eq_zero_iff {s t : ℕ → UInt8} :
    strncmp s t n = 0 ↔ content 0 n s = content 0 n t := strncmpFrom_eq_zero_iff

theorem length_strncpy {s : ℕ → UInt8} : (strncpy s n).length = n := by
  have hle : (((List.range n).map s).takeWhile (· ≠ 0)).length ≤ n := length_content_le
  rw [strncpy, List.length_append, List.length_replicate]
  omega

theorem strncpy_take {s : ℕ → UInt8} : (strncpy s n).take (content 0 n s).length = content 0 n s :=
  List.take_left' rfl

theorem readDentryByName_eq_some (h : readDentryByName img fname = some d) :
    ∃ i < img.numDirEntries.toNat, d = img.dentries i ∧
      d.name = content 0 fileNameLength fname := by
  obtain ⟨i, hi, rfl⟩ := Option.map_eq_some_iff.mp h
  obtain ⟨hsame, hlt, -⟩ := List.find?_range_eq_some.mp hi
  refine ⟨i, List.mem_range.mp hlt, rfl, ?_⟩
  exact (strncmp_eq_zero_iff.mp (by simpa using hsame)).symm

theorem Image.Directory.readDentryByName_eq (hd : img.Directory) (hi : i < img.numDirEntries.toNat)
    (h : (img.dentries i).name = content 0 fileNameLength fname) :
    readDentryByName img fname = some (img.dentries i) := by
  cases hfound : readDentryByName img fname with
  | none =>
    have hnone := List.find?_eq_none.mp (Option.map_eq_none_iff.mp hfound) i (List.mem_range.mpr hi)
    have hsame : strncmp fname (img.dentries i).fileName fileNameLength = 0 :=
      strncmp_eq_zero_iff.mpr h.symm
    exact absurd hsame (by simpa using hnone)
  | some d =>
    obtain ⟨j, hj, rfl, hname⟩ := readDentryByName_eq_some hfound
    rw [hd.distinct i hi j hj (h.trans hname.symm)]

theorem Points.head {c : UInt8} (h : Points fname (c :: text)) : fname 0 = c :=
  h.agrees 0 (Nat.zero_le _)

theorem Points.head_ne_zero {c : UInt8} (h : Points fname (c :: text)) : c ≠ 0 :=
  fun hzero ↦ h.nonzero (hzero ▸ List.mem_cons_self)

theorem Points.tail {c : UInt8} (h : Points fname (c :: text)) :
    Points (fun i ↦ fname (i + 1)) text :=
  ⟨fun hzero ↦ h.nonzero (List.mem_cons_of_mem c hzero),
    fun i hi ↦ h.agrees (i + 1) (Nat.succ_le_succ hi)⟩

theorem Points.content (h : Points fname text) : content 0 n fname = text.take n := by
  induction n generalizing fname text with
  | zero => rw [content_zero, List.take_zero]
  | succ n ih =>
    rw [content_succ]
    cases text with
    | nil =>
      have hend : fname 0 = 0 := h.agrees 0 le_rfl
      rw [if_pos hend, List.take_nil]
    | cons c text =>
      rw [h.head, if_neg h.head_ne_zero, ih h.tail, List.take_succ_cons]

theorem Dentry.name_copyTo : (d.copyTo out).name = d.name := by
  rw [Dentry.name, Dentry.name, FixedField.content, FixedField.content]
  refine congrArg _ (List.map_congr_left fun i hi ↦ if_pos ?_)
  exact (List.mem_range.mp hi).trans (by decide)

/-- What a look-up of a string is to come to: the one entry that has its first 32 bytes
for a name, and nothing if there is none. -/
structure LooksUp (img : Image) (fname : ℕ → UInt8) (text : List UInt8) (out : Dentry) :
    Prop where
  found_iff : ∀ i < img.numDirEntries.toNat,
    readDentryByNameTo img fname out = (0, (img.dentries i).copyTo out) ↔
      (img.dentries i).name = text.take fileNameLength
  unique : ∀ i < img.numDirEntries.toNat, ∀ j < img.numDirEntries.toNat,
    (img.dentries i).name = text.take fileNameLength →
    (img.dentries j).name = text.take fileNameLength → i = j
  by_index : ∀ i < img.numDirEntries.toNat, (img.dentries i).name = text.take fileNameLength →
    readDentryByIndexTo img i.toUInt32 out = readDentryByNameTo img fname out
  not_found : (∀ i < img.numDirEntries.toNat, (img.dentries i).name ≠ text.take fileNameLength) →
    readDentryByNameTo img fname out = (-1, out)
  near_miss : ∀ i < img.numDirEntries.toNat, (img.dentries i).name.length < fileNameLength →
    text ≠ (img.dentries i).name →
    readDentryByNameTo img fname out ≠ (0, (img.dentries i).copyTo out)
  empty : text = [] → readDentryByNameTo img fname out = (-1, out)

theorem Image.Directory.not_found (h : Points fname text)
    (hno : ∀ i < img.numDirEntries.toNat, (img.dentries i).name ≠ text.take fileNameLength) :
    readDentryByNameTo img fname out = (-1, out) := by
  rw [readDentryByNameTo]
  cases hfound : readDentryByName img fname with
  | none => rfl
  | some d =>
    obtain ⟨i, hi, rfl, hname⟩ := readDentryByName_eq_some hfound
    rw [h.content] at hname
    exact absurd hname (hno i hi)

theorem Image.Directory.found_iff (hd : img.Directory) (h : Points fname text)
    (hi : i < img.numDirEntries.toNat) :
    readDentryByNameTo img fname out = (0, (img.dentries i).copyTo out) ↔
      (img.dentries i).name = text.take fileNameLength := by
  constructor
  · intro hcall
    by_contra hne
    by_cases hex : ∃ j < img.numDirEntries.toNat,
        (img.dentries j).name = text.take fileNameLength
    · obtain ⟨j, hj, hname⟩ := hex
      have hsame : (img.dentries j).name = content 0 fileNameLength fname := by
        rw [hname, h.content]
      have hfound := hd.readDentryByName_eq hj hsame
      rw [readDentryByNameTo, hfound] at hcall
      have hsame := congrArg Dentry.name (Prod.mk.inj hcall).2
      rw [Dentry.name_copyTo, Dentry.name_copyTo] at hsame
      exact hne (hsame.symm.trans hname)
    · rw [not_found h fun j hj hname ↦ hex ⟨j, hj, hname⟩] at hcall
      exact absurd (Prod.mk.inj hcall).1 (by decide)
  · intro hname
    rw [readDentryByNameTo, hd.readDentryByName_eq hi (by rw [hname, h.content])]

/-- In a directory whose entries have names of their own a look-up finds the entry of
that name and no other. -/
theorem name_lookup (hd : img.Directory) (h : Points fname text) (out : Dentry) :
    LooksUp img fname text out := by
  refine ⟨fun i hi ↦ hd.found_iff h hi,
    fun i hi j hj hname hname' ↦ hd.distinct i hi j hj (hname.trans hname'.symm),
    fun i hi hname ↦ ?_, Image.Directory.not_found h, fun i hi hlt hne hcall ↦ ?_, fun hnil ↦ ?_⟩
  · have hsize : i.toUInt32.toNat = i := by
      rw [Nat.toUInt32_eq, UInt32.toNat_ofNat']
      exact Nat.mod_eq_of_lt (hi.trans img.numDirEntries.toNat_lt)
    have hin : ¬ i.toUInt32 ≥ img.numDirEntries :=
      UInt32.not_le.mpr (UInt32.lt_iff_toNat_lt.mpr (by rwa [hsize]))
    rw [(hd.found_iff h hi).mpr hname, readDentryByIndexTo, readDentryByIndex, if_neg hin, hsize]
  · have hname := (hd.found_iff h hi).mp hcall
    refine hne ?_
    rw [hname, List.length_take] at hlt
    rw [hname, List.take_of_length_le (by omega)]
  · refine Image.Directory.not_found h fun i hi hname ↦ hd.named i hi ?_
    rw [hname, hnil, List.take_nil]

theorem sampleImage_directory : sampleImage.Directory where
  named := by decide
  distinct := by decide

theorem name_lookup_sample :
    readDentryByNameTo sampleImage (cstr (ascii "shell")) ⟨fun _ ↦ 7⟩ =
      (0, (sampleImage.dentries 1).copyTo ⟨fun _ ↦ 7⟩) ∧
    readDentryByNameTo sampleImage (cstr (ascii "shel")) ⟨fun _ ↦ 7⟩ = (-1, ⟨fun _ ↦ 7⟩) := by
  have hshell := name_lookup sampleImage_directory
    (show Points (cstr (ascii "shell")) (ascii "shell") from ⟨by decide, fun _ _ ↦ rfl⟩)
    ⟨fun _ ↦ 7⟩
  have hshel := name_lookup sampleImage_directory
    (show Points (cstr (ascii "shel")) (ascii "shel") from ⟨by decide, fun _ _ ↦ rfl⟩)
    ⟨fun _ ↦ 7⟩
  exact ⟨(hshell.found_iff 1 (by decide)).mpr (by decide), hshel.not_found (by decide)⟩

end ApollOS
