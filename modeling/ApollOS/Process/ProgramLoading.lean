import ApollOS.Process.ExecuteDecision
import ApollOS.Process.CleanStart

namespace ApollOS

open Function Runs

variable {b : Build} {m : Machine} {k k' k₀ : Kernel} {c : Command} {d : Dentry} {p v : ℕ}
  {entry : UInt32} {xs : List Happening}

namespace Kernel

/-- Copying the file of an entry in for process `p` comes to a store at address `v`:
there is a byte for it, and none of the stores before it has faulted. -/
def LoadStores (b : Build) (k : Kernel) (d : Dentry) (p v : ℕ) : Prop :=
  ∃ i < programLength b.image d.inodeNum, v = executeStart + i ∧
    ∀ j < i, (walk b (k.paging.remap virtualStart (userBlock p)) (executeStart + j)).isSome

end Kernel

/-- The program is copied to the addresses of the user page behind `EXECUTE_START` and
nowhere else, and it is started with its whole file there if it is started. -/
structure LoadsSafely (b : Build) (k : Kernel) (c : Command) (d : Dentry) : Prop where
  within : ∀ p f v, k.getNewPid = some (p, f) → k.LoadStores b d p v →
    executeStart ≤ v ∧ v < virtualEnd
  own : ∀ k' entry, k.execute b (some c) = some (k', .started entry) → ∀ a : ℤ,
    a < userBlock k'.runningPid ∨ userBlock k'.runningPid + fourMb ≤ a →
      k'.console.mem a = k.console.mem a
  whole : (∃ k' value, k.execute b (some c) = some (k', .returned value)) ∨
    ∃ k' entry, k.execute b (some c) = some (k', .started entry) ∧
      ∀ i < (fileContent b.image d.inodeNum).length,
        k'.page k'.runningPid (executeOffset + i) = (fileContent b.image d.inodeNum).getD i 0

theorem Program.content (hw : b.image.WellFormed) (h : Program b.image c d) :
    readData b.image d.inodeNum 0 fourMb.toUInt32 = some (fileContent b.image d.inodeNum) :=
  readData_whole hw ((readInto_magic_iff hw).mp h.magic).1

theorem Program.length_eq (hw : b.image.WellFormed) (h : Program b.image c d) :
    programLength b.image d.inodeNum = (fileContent b.image d.inodeNum).length := by
  rw [programLength, h.content hw, Option.getD_some]

theorem Program.bytes_eq (hw : b.image.WellFormed) (h : Program b.image c d) :
    programBytes b.image c = fileContent b.image d.inodeNum := by
  rw [programBytes, h.name]
  simp only [h.content hw, Option.getD_some]

theorem fits_of_le {pg : Paging} {length : ℕ} (h : length ≤ virtualEnd - executeStart) :
    Fits b pg length := by
  intro v hv hlt
  simp only [virtualEnd, executeStart] at h hv hlt
  omega

theorem loadStores_virtualEnd (hp : p < maxProcesses)
    (hlen : virtualEnd - executeStart < programLength b.image d.inodeNum) :
    k.LoadStores b d p virtualEnd := by
  refine ⟨virtualEnd - executeStart, hlen, by decide, fun j hj ↦ ?_⟩
  rw [walk_remap hp]
  · rfl
  · exact le_trans (by decide) (Nat.le_add_right executeStart j)
  · simp only [virtualEnd, executeStart] at *
    omega

theorem Kernel.LoadStores.lt (h : k.LoadStores b d p v)
    (hlen : programLength b.image d.inodeNum ≤ virtualEnd - executeStart) :
    executeStart ≤ v ∧ v < virtualEnd := by
  obtain ⟨i, hi, rfl, -⟩ := h
  simp only [virtualEnd, executeStart] at *
  omega

theorem Forest.not_loadsSafely {held : Fin maxTerminals → List ℕ} (hf : Forest k held)
    (hroom : Room k) (hlong : virtualEnd - executeStart < programLength b.image d.inodeNum) :
    ¬ LoadsSafely b k c d := by
  intro h
  obtain ⟨p, hnew⟩ := hf.toStacked.exists_newPid (hf.toStacked.canExecute_iff_card.mpr hroom)
  have hstores : k.LoadStores b d p virtualEnd :=
    loadStores_virtualEnd (Kernel.getNewPid_eq_some hnew).1 hlong
  exact absurd (h.within p _ _ hnew hstores).2 (lt_irrefl virtualEnd)

/-- What `execute` takes for a program is copied in as it should be exactly if the file
ends within the user page. -/
theorem loads_safely_iff (hw : b.image.WellFormed) (hb : Boots b m k₀)
    (hr : run (Kernel.happen b) k₀ xs = some k) (hexit : Kernel.isExit c = false)
    (hroom : Room k) (hprog : Program b.image c d) :
    LoadsSafely b k c d ↔
      (fileContent b.image d.inodeNum).length ≤ virtualEnd - executeStart := by
  have hl := (boots_cases hb).1
  have htracked := Tracked.reachable hb hr
  obtain ⟨held, hf⟩ := htracked.forest
  have hlength := hprog.length_eq hw
  constructor
  · intro h
    by_contra hlong
    exact hf.not_loadsSafely hroom (by omega) h
  · intro hlen
    have hinode := ((readInto_magic_iff hw).mp hprog.magic).1
    rcases hf.execute_program hw hexit hroom hprog hinode with
      ⟨-, p, mem, hfree, hstart⟩ | ⟨hmisfit, -⟩
    · refine ⟨fun p f v _ hv ↦ hv.lt (by omega), fun k' entry hx a ha ↦ ?_, .inr ⟨_, _, hstart, ?_⟩⟩
      · rw [Kernel.execute_launch hexit] at hx
        rcases Kernel.launch_cases hx with ⟨r, s, ho, -⟩ | ⟨q, mem', e, -, hnew, -, rfl, hloads⟩
        · cases ho
        rw [runningPid_installed] at ha
        exact hloads.frame (Kernel.getNewPid_eq_some hnew).1
          ⟨d, hprog.name, hprog.magic, by omega⟩ ha
      · intro i hi
        have hstarts := htracked.starts hl hstart
        have hcommand : startedCommand c = c := by rw [startedCommand, hexit, if_neg (by decide)]
        have hpage := hstarts.program (executeOffset + i)
        rw [hcommand, InProgram, hprog.bytes_eq hw, Nat.add_sub_cancel_left] at hpage
        refine hpage ?_ ⟨Nat.le_add_right _ _, Nat.add_lt_add_left hi _⟩
        simp only [executeOffset, virtualEnd, executeStart, virtualStart, fourMb] at *
        omega
    · exact absurd (fits_of_le hlen) hmisfit

section Sample

def bigImage : Image where
  numDirEntries := 5
  numInodes := 3
  numDataBlocks := 2
  dentries i := if i = 4 then .of (ascii "big") 2 2 else sampleImage.dentries i
  inodes i := if i = 2 then ⟨0x3B8001, fun _ ↦ 0⟩ else sampleImage.inodes i
  dataBlocks := sampleImage.dataBlocks

def bigBuild : Build := { sampleBuild with image := bigImage }

def bigCommand : Command := ⟨ascii "big", by decide, by decide⟩

theorem bigImage_wellFormed : bigImage.WellFormed where
  length_le := by decide
  block_lt i hi j hj := by
    have hlt : i < 3 := hi
    interval_cases i
    · exact show (0 : UInt32) < 2 by decide
    · exact show (1 : UInt32) < 2 by decide
    · exact show (0 : UInt32) < 2 by decide
  inode_lt := by decide

theorem bigImage_loadable : Loadable bigImage shellCommand :=
  ⟨.of (ascii "shell") 2 0, rfl, by decide, by decide⟩

theorem big_program : Program bigImage bigCommand (.of (ascii "big") 2 2) := ⟨rfl, by decide⟩

theorem big_length : (fileContent bigImage (Dentry.of (ascii "big") 2 2).inodeNum).length =
    0x3B8001 := by
  rw [length_fileContent]
  decide

theorem big_last : (fileContent bigImage (Dentry.of (ascii "big") 2 2).inodeNum).getD 0x3B8000 0 =
    0x7F := by
  have hlt : 0x3B8000 < (fileContent bigImage (Dentry.of (ascii "big") 2 2).inodeNum).length := by
    rw [big_length]
    decide
  rw [List.getD_eq_getElem?_getD, List.getElem?_eq_getElem hlt, Option.getD_some]
  simp only [fileContent, List.getElem_map, List.getElem_range]
  decide

theorem big_stored (hwalk : walk bigBuild k.paging virtualEnd = some ⟨vidMemLoc * fourKb, true⟩)
    (hx : k.execute bigBuild (some bigCommand) = some (k', .started entry)) :
    k'.console.mem video = 0x7F := by
  rw [Kernel.execute_launch (by decide)] at hx
  rcases Kernel.launch_cases hx with ⟨r, s, ho, -⟩ | ⟨p, mem, e, -, -, -, rfl, d, hname, hstore⟩
  · cases ho
  obtain rfl := Option.some.inj (big_program.name.symm.trans hname)
  have hcontent := big_program.content (b := bigBuild) bigImage_wellFormed
  rw [hcontent, Option.getD_some] at hstore
  have hlast : virtualEnd = executeStart + 0x3B8000 := by decide
  have hbig : (fileContent bigBuild.image (Dentry.of (ascii "big") 2 2).inodeNum).length =
      0x3B8001 := big_length
  have hstored := storeBytes_stored (j := 0x3B8000) hstore (by rw [hbig]; decide)
    (by rw [← hlast, walk_remap_behind le_rfl, hwalk]) fun i hlt hi ↦ by omega
  exact hstored.trans big_last

/-- Copying the long program in is a page fault, and once `vidmap` has been called it
overwrites the screen. -/
theorem big_file_escapes : bigImage.WellFormed ∧ ∃ k k₁ k₂ entry,
    Boots bigBuild sampleMachine k ∧ k.execute bigBuild (some bigCommand) = none ∧
    ¬ LoadsSafely bigBuild k bigCommand (.of (ascii "big") 2 2) ∧
    k.happen bigBuild (.enters (.vidmap virtualStart.toUInt32)) = some k₁ ∧
    k₁.execute bigBuild (some bigCommand) = some (k₂, .started entry) ∧
    k₂.console.mem video = 0x7F ∧
    ¬ LoadsSafely bigBuild k₁ bigCommand (.of (ascii "big") 2 2) := by
  obtain ⟨k, hb⟩ := boots_iff_loadable (b := bigBuild) (m := sampleMachine).mpr bigImage_loadable
  have hf := boots_forest hb
  have hl := (boots_cases hb).1
  have hexit : Kernel.isExit bigCommand = false := by decide
  have hinode : (Dentry.of (ascii "big") 2 2).inodeNum < bigImage.numInodes := by decide
  have hlong : virtualEnd - executeStart <
      programLength bigBuild.image (Dentry.of (ascii "big") 2 2).inodeNum := by
    rw [big_program.length_eq bigImage_wellFormed, show bigBuild.image = bigImage from rfl,
      big_length]
    decide
  have hfault : k.execute bigBuild (some bigCommand) = none := by
    rcases hf.execute_program (b := bigBuild) bigImage_wellFormed hexit (boots_room hb) big_program
        hinode with ⟨hfits, -⟩ | ⟨-, hnone⟩
    · have hmapped := hfits virtualEnd le_rfl (by simp only [bigBuild, big_length]; decide)
      have hdir := ((boots_accounted hb).noVideo id).1
      rw [walk_absent hdir] at hmapped
      exact absurd hmapped (by decide)
    · exact hnone
  obtain ⟨k₁, hvid⟩ := (boots_mapped hb).vidmap_own hf.running_lt
  have hstep : k.step bigBuild (.vidmap virtualStart.toUInt32) = some k₁ :=
    congrArg (Option.map Prod.fst) hvid
  obtain ⟨held, hf₁, -⟩ := hf.step hl hstep
  have hacc := hf.step_accounted hl (boots_accounted hb) hstep
  have hroom : Room k₁ := by
    have hsame : Room k := boots_room hb
    rcases Kernel.vidmap_cases hvid with ⟨-, hr⟩ | ⟨mem, -, -, rfl⟩
    · cases hr
    · exact hsame
  have hvideo : walk bigBuild k₁.paging virtualEnd = some ⟨vidMemLoc * fourKb, true⟩ :=
    hacc.walk_userAddress hf₁.running_lt
      (.video (j := 0) (.inr ⟨_, k₁, rfl, hvid⟩) (.inr rfl) (by decide))
  rcases hf₁.execute_program (b := bigBuild) bigImage_wellFormed hexit hroom big_program hinode with
    ⟨-, p, mem, -, hstart⟩ | ⟨hmisfit, -⟩
  · exact ⟨bigImage_wellFormed, k, k₁, _, _, hb, hfault, hf.not_loadsSafely (boots_room hb) hlong,
      hstep, hstart, big_stored hvideo hstart, hf₁.not_loadsSafely hroom hlong⟩
  · refine absurd (fun v hv hlt ↦ ?_) hmisfit
    have hlast : v = virtualEnd := by
      rw [show bigBuild.image = bigImage from rfl, big_length] at hlt
      simp only [virtualEnd, executeStart] at *
      omega
    rw [hlast, hvideo]
    rfl

theorem loads_safely_iff_sample : ∃ k, Boots sampleBuild sampleMachine k ∧
    LoadsSafely sampleBuild k shellCommand (.of (ascii "shell") 2 0) := by
  obtain ⟨k, hb⟩ := sample_boots
  have hr : run (Kernel.happen sampleBuild) k [] = some k := rfl
  exact ⟨k, hb, (loads_safely_iff sampleImage_wellFormed hb hr (by decide) (boots_room hb)
    ⟨rfl, by decide⟩).mpr (by decide)⟩

end Sample

end ApollOS
