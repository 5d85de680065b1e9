import ApollOS.Process.Transitions

namespace ApollOS

open Function

variable {b : Build} {m : Machine} {k : Kernel} {p : ℕ} {mem : Memory}

/-- The kernel just before the first shell is executed. -/
def Machine.ready (b : Build) (m : Machine) : Kernel :=
  let k := (m.initial b).resetTerminals b
  k.begun k.termCur

namespace Machine

theorem ready_eq : m.ready b = ((m.initial b).resetTerminals b).begun 0 := rfl

theorem initTerminals_eq : (m.initial b).initTerminals b =
    afterCall ((m.ready b).launch b .terminalStart shellCommand) fun k ↦
      some (k, .returned 0) := rfl

theorem ready_stacked : Stacked (m.ready b) fun _ ↦ [] := by
  have hreset : Stacked ((m.initial b).resetTerminals b) fun _ ↦ [] :=
    { part := ⟨fun _ ↦ List.nodup_nil, fun _ _ _ ↦ List.disjoint_nil_left _,
        fun p ↦ by simp [Kernel.live, Kernel.resetTerminals, initial]⟩
      chain := fun t ht ↦ absurd rfl ht
      count := fun _ ↦ rfl
      pid := fun p hp ↦ by simp [Kernel.live, Kernel.resetTerminals, initial] at hp
      bound := fun p hp ↦ by simp [Kernel.live, Kernel.resetTerminals, initial] at hp }
  exact hreset.begun 0

theorem ready_termCur : (m.ready b).termCur = 0 := by
  rw [ready_eq, Kernel.begun_termCur]
  rfl

theorem ready_init (t : Fin maxTerminals) :
    ((m.ready b).terminal t).init = true ↔ t = 0 := by
  by_cases ht : t = 0
  · subst ht
    exact iff_of_true Kernel.begun_init rfl
  · rw [ready_eq, Kernel.begun_terminal_of_ne ht]
    simp [Kernel.resetTerminals, ht]

theorem ready_walk_virtualEnd (p : ℕ) :
    walk b ((m.ready b).paging.remap virtualStart (userBlock p)) virtualEnd = none := by
  have hdir : ((m.ready b).paging.remap virtualStart (userBlock p)).pageDir
      (virtualEnd / fourMb) = 2 := by
    simp [ready_eq, Kernel.begun_paging, Kernel.resetTerminals, initial, initPaging, Paging.remap,
      Paging.remapToPage, virtualEnd, virtualStart, fourMb, termMem]
  exact walk_absent hdir

theorem ready_getNewPid :
    (m.ready b).getNewPid = some (0, (m.ready b).processesFlags ||| 1#8 <<< 0) := by
  have hflags : (m.ready b).processesFlags = 0 := by
    rw [ready_eq, Kernel.begun_flags]
    rfl
  rw [Kernel.getNewPid, hflags]
  decide

end Machine

theorem boots_cases (h : Boots b m k) : Loadable b.image shellCommand ∧ ∃ mem,
    k = (m.ready b).installed b .terminalStart 0 (commandArgs shellCommand.text) mem := by
  obtain ⟨entry, h⟩ := h
  rw [Machine.initTerminals_eq] at h
  cases hlaunch : (m.ready b).launch b .terminalStart shellCommand with
  | none => simp [hlaunch, afterCall] at h
  | some r =>
    obtain ⟨k₁, o⟩ := r
    rw [hlaunch] at h
    rcases Kernel.launch_cases hlaunch with ⟨v, s, rfl, -⟩ | ⟨p, mem, e, -, hnew, rfl, rfl, -⟩
    · simp [afterCall] at h
    · obtain ⟨rfl, -⟩ := Prod.mk.inj (Option.some.inj h)
      refine ⟨Kernel.loadable_of_started hlaunch fun p _ ↦ Machine.ready_walk_virtualEnd p, mem, ?_⟩
      rw [Machine.ready_getNewPid] at hnew
      obtain ⟨rfl, -⟩ := Prod.mk.inj (Option.some.inj hnew)
      rfl

/-- The kernel comes up on exactly the images whose shell can be loaded. -/
theorem boots_iff_loadable : (∃ k, Boots b m k) ↔ Loadable b.image shellCommand := by
  constructor
  · rintro ⟨k, h⟩
    exact (boots_cases h).1
  · intro hl
    have hs := Machine.ready_stacked (b := b) (m := m)
    have hcan : (m.ready b).canExecute = true :=
      hs.canExecute_iff.mpr (by rw [Machine.ready_getNewPid]; rfl)
    obtain ⟨p, hp⟩ := hs.exists_newPid hcan
    obtain ⟨mem, entry, hlaunch⟩ := Kernel.launch_loadable .terminalStart hl hcan hp
    refine ⟨(m.ready b).installed b .terminalStart p (commandArgs shellCommand.text) mem, entry, ?_⟩
    rw [Machine.initTerminals_eq, hlaunch]
    rfl

section Sample

def Dentry.of (name : List UInt8) (type inode : UInt8) : Dentry where
  bytes i := if i < fileNameLength then name.getD i 0
    else if i = 32 then type else if i = 36 then inode else 0

def samplePrograms : List (List UInt8) :=
  [elfMagic ++ List.replicate 20 0 ++ [0x18, 0x80, 0x04, 0x08], ascii "a\x00b\n"]

def sampleImage : Image where
  numDirEntries := 4
  numInodes := 2
  numDataBlocks := 2
  dentries i := match i with
    | 0 => .of (ascii ".") 1 0
    | 1 => .of (ascii "shell") 2 0
    | 2 => .of (ascii "rtc") 0 0
    | _ => .of (ascii "notes") 2 1
  inodes i := ⟨(samplePrograms.getD i []).length.toUInt32, fun _ ↦ i.toUInt32⟩
  dataBlocks i j := (samplePrograms.getD i []).getD j 0

def sampleBuild : Build where
  image := sampleImage
  pageTableAddr := 0x405000
  userTableAddr := 0x406000
  pageTable_lt := by decide
  userTable_lt := by decide
  pageTable_aligned := by decide
  userTable_aligned := by decide
  tables_ne := by decide
  depth _ := 432
  depth_pos _ := by decide

def sampleMachine : Machine where
  mem _ := 0
  pcb _ := ⟨fun _ ↦ ⟨0, 0, 0, .fail⟩, 0, [], 0, 0⟩
  devices := ⟨0xFB, 0xFF, 0x26, 0x02, false⟩
  messages := []

theorem sampleImage_loadable : Loadable sampleImage shellCommand :=
  ⟨.of (ascii "shell") 2 0, rfl, by decide, by decide⟩

theorem sample_boots : ∃ k, Boots sampleBuild sampleMachine k :=
  boots_iff_loadable.mpr sampleImage_loadable

end Sample

end ApollOS
