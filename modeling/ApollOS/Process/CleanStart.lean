import ApollOS.Files.FileData
import ApollOS.Process.UserAccess

namespace ApollOS

open Function Runs

variable {b : Build} {m : Machine} {k k' k₀ u v : Kernel} {pg : Paging} {a : Action} {c : Command}
  {d : Prop} {p q : ℕ} {entry : UInt32}

/-- What happens on the machine: the kernel is entered, or the running program stores
a byte. -/
inductive Happening
  | enters (a : Action)
  | stores (addr : ℕ) (byte : UInt8)

namespace Kernel

/-- A store in user mode; `none` when it faults. -/
def userStore (b : Build) (k : Kernel) (addr : ℕ) (byte : UInt8) : Option Kernel :=
  match walk b k.paging addr with
  | none => none
  | some t =>
    if t.user then
      some { k with console := { k.console with mem := update k.console.mem (t.addr : ℤ) byte } }
    else none

def happen (b : Build) (k : Kernel) (h : Happening) : Option Kernel :=
  match h with
  | .enters a => k.step b a
  | .stores addr byte => k.userStore b addr byte

def page (k : Kernel) (p i : ℕ) : UInt8 := k.console.mem (userBlock p + i : ℕ)

theorem userStore_eq_some {addr : ℕ} {byte : UInt8} (h : k.userStore b addr byte = some k') :
    ∃ mem, k' = { k with console := { k.console with mem := mem } } := by
  unfold userStore at h
  split at h
  · cases h
  · split at h
    · exact ⟨_, (Option.some.inj h).symm⟩
    · cases h

end Kernel

section Inodes

def SameInodes (k k' : Kernel) : Prop :=
  ∀ p (i : Fin maxFiles), i.val < 2 → ((k'.pcb p).files i).inode = ((k.pcb p).files i).inode

theorem SameInodes.of_pcb (h : k'.pcb = k.pcb) : SameInodes k k' := fun p i _ ↦ by rw [h]

theorem SameInodes.of_effect (h : FdEffect q k k') : SameInodes k k' := by
  intro p j hj
  cases h with
  | io => rfl
  | @file devices i f hi =>
    by_cases hp : p = q
    · subst hp
      by_cases hji : j = i
      · subst hji
        simp [Kernel.setFile, Kernel.setPcb, hi.resolve_left (by omega)]
      · simp [Kernel.setFile, Kernel.setPcb, hji]
    · simp [Kernel.setFile, Kernel.setPcb, hp]
  | line hread =>
    have hlocal : Local ∅ k k' := .terminalRead hread
    rw [hlocal.pcb p (Set.notMem_empty p)]

theorem SameInodes.trans {k'' : Kernel} (h : SameInodes k k') (h' : SameInodes k' k'') :
    SameInodes k k'' := fun p i hi ↦ (h' p i hi).trans (h p i hi)

theorem SameInodes.installed {site : CallSite} {args : List UInt8} {mem : Memory} :
    SameInodes k (k.installed b site p args mem) := by
  intro q i hi
  by_cases hq : q = p
  · subst hq
    by_cases hzero : i = 0
    · simp [Kernel.installed, Kernel.initFiles, hzero]
    · have hval : i.val ≠ 0 := fun h ↦ hzero (Fin.ext h)
      have hone : i = 1 := Fin.ext (show i.val = 1 by omega)
      simp [Kernel.installed, Kernel.initFiles, hone]
  · simp [Kernel.installed, hq]

theorem Forest.step_inodes {held : Fin maxTerminals → List ℕ} (hf : Forest k held)
    (hl : Loadable b.image shellCommand) (hk : k.step b a = some k') : SameInodes k k' := by
  cases hf.transition hl hk with
  | quiet _ hs =>
    by_cases hcall : ∃ call, a = .fdCall call
    · obtain ⟨call, rfl⟩ := hcall
      obtain ⟨⟨k₁, r⟩, hr, rfl⟩ := Option.map_eq_some_iff.mp hk
      exact .of_effect (.fdCall hr)
    · exact .of_pcb (funext fun p ↦ hs.pcb p fun hp ↦ hcall hp.2)
  | vidmap hs => exact .of_pcb (funext fun p ↦ hs.pcb p (Set.notMem_empty p))
  | launch => exact .installed
  | respawn => exact .trans (.of_pcb rfl) .installed
  | resume => exact .of_pcb rfl
  | load => exact .of_pcb rfl
  | @start term =>
    have hpcb : ((k.leftFor term).begun term).pcb = k.pcb := by
      rw [Kernel.begun_pcb]
      rfl
    exact .trans (.of_pcb hpcb) .installed

end Inodes

/-- What is known of the state of the machine at any time: the processes, the page
tables, and that the first two descriptors still have the inodes that were in memory
when the kernel came up. -/
structure Tracked (b : Build) (m : Machine) (k : Kernel) : Prop where
  forest : ∃ held, Forest k held
  accounted : ∃ d, Accounted b k.paging k.runningPid d
  inodes : ∀ p (i : Fin maxFiles), i.val < 2 →
    ((k.pcb p).files i).inode = ((m.pcb p).files i).inode

namespace Tracked

theorem boots (hb : Boots b m k) : Tracked b m k where
  forest := ⟨_, boots_forest hb⟩
  accounted := ⟨_, boots_accounted hb⟩
  inodes := by
    obtain ⟨-, mem, rfl⟩ := boots_cases hb
    have hpcb : (m.ready b).pcb = m.pcb := by
      rw [Machine.ready_eq, Kernel.begun_pcb]
      rfl
    intro p i hi
    rw [SameInodes.installed p i hi, hpcb]

theorem step (h : Tracked b m k) (hl : Loadable b.image shellCommand)
    (hk : k.step b a = some k') : Tracked b m k' := by
  obtain ⟨held, hf⟩ := h.forest
  obtain ⟨held', hf', -⟩ := hf.step hl hk
  obtain ⟨d, hd⟩ := h.accounted
  exact ⟨⟨held', hf'⟩, ⟨_, hf.step_accounted hl hd hk⟩,
    fun p i hi ↦ (hf.step_inodes hl hk p i hi).trans (h.inodes p i hi)⟩

theorem happen (h : Tracked b m k) (hl : Loadable b.image shellCommand) {x : Happening}
    (hk : k.happen b x = some k') : Tracked b m k' := by
  cases x with
  | enters a => exact h.step hl hk
  | stores addr byte =>
    obtain ⟨mem, rfl⟩ := Kernel.userStore_eq_some hk
    obtain ⟨held, hf⟩ := h.forest
    exact ⟨⟨held, hf.congr (.io _ k.keyboard k.devices)⟩, h.accounted, h.inodes⟩

theorem reachable {xs : List Happening} (hb : Boots b m k₀)
    (hr : run (Kernel.happen b) k₀ xs = some k) : Tracked b m k :=
  invariant (fun _ _ _ h hk ↦ h.happen (boots_cases hb).1 hk) (boots hb) hr

end Tracked

def executeOffset : ℕ := executeStart - virtualStart

def programBytes (img : Image) (c : Command) : List UInt8 :=
  match readDentryByName img (cstr (commandWord c.text)) with
  | none => []
  | some dentry => (readData img dentry.inodeNum 0 fourMb.toUInt32).getD []

/-- The places of the user page that are overwritten when a command's program is
copied in. -/
def InProgram (img : Image) (c : Command) (i : ℕ) : Prop :=
  executeOffset ≤ i ∧ i < executeOffset + (programBytes img c).length

/-- The command whose program is started: if "exit" ends the last process of a terminal,
that is a shell. -/
def startedCommand (c : Command) : Command := if Kernel.isExit c then shellCommand else c

theorem length_readData_le {img : Image} {inode length : UInt32} :
    ((readData img inode 0 length).getD []).length ≤ length.toNat := by
  rw [readData_eq_call]
  split_ifs with hno
  · exact Nat.zero_le _
  · have hv : ValidRead img inode 0 :=
      ⟨UInt32.not_le.mp fun h ↦ hno (.inl h), UInt32.zero_le⟩
    rw [Option.getD_some, readDataCall_valid hv]
    simp only [List.length_map, List.length_range, readLength, UInt32.zero_add, UInt32.sub_zero]
    split_ifs with hcut
    · exact (UInt32.lt_iff_toNat_lt.mp hcut).le
    · exact le_rfl

theorem length_programBytes_le : (programBytes b.image c).length ≤ fourMb := by
  unfold programBytes
  split
  · exact Nat.zero_le _
  · exact length_readData_le

namespace Accounted

theorem walk_behind (h : Accounted b pg p d) {addr : ℕ} {t : Translation}
    (haddr : virtualEnd ≤ addr) (haddr' : addr < virtualEnd + fourMb)
    (ht : walk b pg addr = some t) (hq : q < maxProcesses) :
    t.addr < userBlock q ∨ userBlock q + fourMb ≤ t.addr := by
  have hdiv : addr / fourMb = virtualEnd / fourMb := by
    simp only [virtualEnd, fourMb] at *
    omega
  by_cases hd : d
  · have hdir : pg.pageDir (addr / fourMb) = b.userTableAddr.toUInt32 ||| rwpFlags := by
      rw [hdiv, (h.video hd).1]
    have hmod : addr % fourKb < fourKb := Nat.mod_lt _ (by decide)
    generalize hn : addr / fourKb % 1024 = n at *
    rcases Nat.lt_or_ge maxTerminals n with hbig | hsmall
    · rw [walk_userTable_none hdir (by rw [hn, h.unused n hbig])] at ht
      cases ht
    cases n with
    | zero =>
      rw [walk_userTable_page hdir (by rw [hn, (h.video hd).2]) (by decide) (by decide)] at ht
      obtain rfl := Option.some.inj ht
      simp only [userBlock, physicalStart, vidMemLoc, fourKb, fourMb] at *
      omega
    | succ n =>
      have hlt : n < maxTerminals := hsmall
      rw [walk_userTable_page hdir (by rw [hn, h.pages ⟨n, hlt⟩]) (termPage_lt _)
        (termPage_aligned _)] at ht
      obtain rfl := Option.some.inj ht
      simp only [userBlock, physicalStart, termPage, termMem, maxProcesses, fourKb, fourMb] at *
      omega
  · rw [walk_absent (by rw [hdiv, (h.noVideo hd).1])] at ht
    cases ht

theorem page_loaded (h : Accounted b pg p d) (hp : p < maxProcesses) {xs : List UInt8}
    {mem mem' : Memory} (hlen : xs.length ≤ fourMb)
    (hstore : storeBytes b pg xs executeStart mem = some mem') {i : ℕ} (hi : i < fourMb) :
    mem' (userBlock p + i : ℕ) =
      if executeOffset ≤ i ∧ i < executeOffset + xs.length then xs.getD (i - executeOffset) 0
      else mem (userBlock p + i : ℕ) := by
  have hwalk (j : ℕ) (hj : executeOffset + j < fourMb) :
      walk b pg (executeStart + j) = some ⟨userBlock p + (executeOffset + j), true⟩ := by
    have hrange : virtualStart ≤ executeStart + j ∧ executeStart + j < virtualEnd := by
      simp only [executeOffset, virtualStart, virtualEnd, executeStart, fourMb] at *
      omega
    have hsub : executeStart + j - virtualStart = executeOffset + j := by
      simp only [executeOffset, virtualStart, executeStart]
      omega
    rw [h.walk_program hp hrange.1 hrange.2, hsub]
  have hother (j : ℕ) (hj : j < xs.length) (hne : executeOffset + j ≠ i) (t : Translation)
      (ht : walk b pg (executeStart + j) = some t) : t.addr ≠ userBlock p + i := by
    rcases Nat.lt_or_ge (executeOffset + j) fourMb with hlt | hge
    · rw [hwalk j hlt] at ht
      obtain rfl := Option.some.inj ht
      dsimp only
      omega
    · have hbehind : virtualEnd ≤ executeStart + j ∧ executeStart + j < virtualEnd + fourMb := by
        simp only [executeOffset, virtualStart, virtualEnd, executeStart, fourMb] at *
        omega
      have hout := h.walk_behind hbehind.1 hbehind.2 ht hp
      omega
  split_ifs with hin
  · obtain ⟨j, rfl⟩ := Nat.exists_eq_add_of_le hin.1
    rw [Nat.add_sub_cancel_left]
    refine storeBytes_stored hstore (by omega) (hwalk j hi) fun i' hlt hi' t ht ↦ ?_
    exact hother i' hi' (by omega) t ht
  · refine storeBytes_frame hstore fun j hj t ht hmem ↦ ?_
    exact hother j hj (by omega) t ht (by exact_mod_cast hmem.symm)

end Accounted

structure Starts (b : Build) (m : Machine) (c : Command) (u v : Kernel) (p : ℕ) : Prop where
  args : (v.pcb p).args = strncpy (cstr (commandArgs (startedCommand c).text)) maxArgsLength
  files : (v.pcb p).files = Kernel.initFiles (m.pcb p).files
  program : ∀ i < fourMb, InProgram b.image (startedCommand c) i →
    v.page p i = (programBytes b.image (startedCommand c)).getD (i - executeOffset) 0
  rest : ∀ i < fourMb, ¬ InProgram b.image (startedCommand c) i → v.page p i = u.page p i

theorem initFiles_congr {f g : Fin maxFiles → File} {i : Fin maxFiles}
    (h : 2 ≤ i.val ∨ (f i).inode = (g i).inode) : Kernel.initFiles f i = Kernel.initFiles g i := by
  by_cases hzero : i = 0
  · subst hzero
    have hinode := h.resolve_left (by decide)
    simp only [Kernel.initFiles, if_true, hinode]
  · by_cases hone : i = 1
    · subst hone
      have hinode := h.resolve_left (by decide)
      simp only [Kernel.initFiles, if_neg hzero, if_true, hinode]
    · simp only [Kernel.initFiles, if_neg hzero, if_neg hone]

namespace Tracked

theorem exists_launch (h : Tracked b m u) (hl : Loadable b.image shellCommand)
    (hx : u.execute b (some c) = some (v, .started entry)) :
    ∃ (u₀ : Kernel) (site : CallSite), u₀.console = u.console ∧ u₀.pcb = u.pcb ∧
      u₀.paging = u.paging ∧ u₀.launch b site (startedCommand c) = some (v, .started entry) := by
  cases hexit : Kernel.isExit c with
  | false =>
    rw [Kernel.execute_launch hexit] at hx
    refine ⟨u, .syscall, rfl, rfl, rfl, ?_⟩
    rwa [startedCommand, hexit]
  | true =>
    obtain ⟨held, hf⟩ := h.forest
    rw [hf.execute_exit hl hexit] at hx
    by_cases hone : u.current.numProcesses = 1
    · obtain ⟨p, mem, entry', -, hlaunch⟩ := hf.retired_launch hl hone
      rw [Kernel.halt_last hone hlaunch] at hx
      refine ⟨u.retired, .halt, rfl, rfl, rfl, ?_⟩
      rw [startedCommand, if_pos hexit, hlaunch, hx]
    · rw [hf.halt_nested hone 0] at hx
      cases (Prod.mk.inj (Option.some.inj hx)).2

theorem starts (h : Tracked b m u) (hl : Loadable b.image shellCommand)
    (hx : u.execute b (some c) = some (v, .started entry)) : Starts b m c u v v.runningPid := by
  obtain ⟨u₀, site, hconsole, hpcb, hpaging, hlaunch⟩ := h.exists_launch hl hx
  rcases Kernel.launch_cases hlaunch with
    ⟨r, s, ho, -⟩ | ⟨p, mem, e, -, hnew, -, rfl, dentry, hname, hstore⟩
  · cases ho
  obtain ⟨hp, -, -⟩ := Kernel.getNewPid_eq_some hnew
  obtain ⟨d, hd⟩ := h.accounted
  have hbytes : (readData b.image dentry.inodeNum 0 fourMb.toUInt32).getD [] =
      programBytes b.image (startedCommand c) := by
    rw [programBytes, hname]
  rw [hbytes, hpaging, hconsole] at hstore
  have hpage {i : ℕ} (hi : i < fourMb) :=
    (hd.remap (p := p)).page_loaded hp length_programBytes_le hstore hi
  rw [runningPid_installed]
  refine ⟨?_, ?_, fun i hi hin ↦ (hpage hi).trans (if_pos hin),
    fun i hi hin ↦ (hpage hi).trans (if_neg hin)⟩
  · simp only [Kernel.installed, update_self]
  · simp only [Kernel.installed, update_self, hpcb]
    funext i
    exact initFiles_congr ((Nat.lt_or_ge i.val 2).symm.imp_right (h.inodes p i))

end Tracked

/-- The descriptors and the argument text of a process do not depend on what was
before it, and the part of its page that its program fills does not either; the rest
of the page is what an earlier process has left there. -/
theorem starts_clean {m₁ m₂ : Machine} {k₁ k₂ u₁ u₂ v₁ v₂ : Kernel} {xs₁ xs₂ : List Happening}
    {entry₁ entry₂ : UInt32} (hb₁ : Boots b m₁ k₁) (hb₂ : Boots b m₂ k₂)
    (hr₁ : run (Kernel.happen b) k₁ xs₁ = some u₁) (hr₂ : run (Kernel.happen b) k₂ xs₂ = some u₂)
    (hx₁ : u₁.execute b (some c) = some (v₁, .started entry₁))
    (hx₂ : u₂.execute b (some c) = some (v₂, .started entry₂))
    (hp₁ : v₁.runningPid = p) (hp₂ : v₂.runningPid = p) :
    (v₁.pcb p).args = (v₂.pcb p).args ∧
    (∀ i : Fin maxFiles, 2 ≤ i.val ∨ ((m₁.pcb p).files i).inode = ((m₂.pcb p).files i).inode →
      (v₁.pcb p).files i = (v₂.pcb p).files i) ∧
    (∀ i < fourMb, InProgram b.image (startedCommand c) i → v₁.page p i = v₂.page p i) ∧
    ∀ i < fourMb, ¬ InProgram b.image (startedCommand c) i →
      v₁.page p i = u₁.page p i ∧ v₂.page p i = u₂.page p i := by
  have hl := (boots_cases hb₁).1
  have h₁ := (Tracked.reachable hb₁ hr₁).starts hl hx₁
  have h₂ := (Tracked.reachable hb₂ hr₂).starts hl hx₂
  rw [hp₁] at h₁
  rw [hp₂] at h₂
  refine ⟨h₁.args.trans h₂.args.symm, fun i hi ↦ ?_,
    fun i hi hin ↦ (h₁.program i hi hin).trans (h₂.program i hi hin).symm,
    fun i hi hout ↦ ⟨h₁.rest i hi hout, h₂.rest i hi hout⟩⟩
  rw [h₁.files, h₂.files]
  exact initFiles_congr hi

section Sample

/-- The shell runs a program that stores a byte at the start of its page and halts. -/
def storeAndHalt (byte : UInt8) : List Happening :=
  [.enters (.execute (some shellCommand)), .stores virtualStart byte, .enters (.halt 0)]

theorem sample_flags (hb : Boots sampleBuild m k) : k.processesFlags = 1#8 := by
  obtain ⟨-, mem, rfl⟩ := boots_cases hb
  have hflags : (m.ready sampleBuild).processesFlags = 0 := by
    rw [Machine.ready_eq, Kernel.begun_flags]
    rfl
  simp only [Kernel.installed, hflags]
  decide

theorem sample_storeAndHalt (byte : UInt8) : ∃ k₀ u v entry,
    Boots sampleBuild sampleMachine k₀ ∧
    run (Kernel.happen sampleBuild) k₀ (storeAndHalt byte) = some u ∧
    u.execute sampleBuild (some shellCommand) = some (v, .started entry) ∧
    v.runningPid = 1 ∧ v.page 1 0 = byte := by
  obtain ⟨k₀, k₁, entry, held, hb, hexec, hf, htwo⟩ := sample_child
  have hl := (boots_cases hb).1
  have hexit : Kernel.isExit shellCommand = false := by decide
  have hstep := Kernel.step_execute hexec
  have hm := (boots_forest hb).step_mapped hl (boots_mapped hb) hstep
  have hnew {k : Kernel} (hflags : k.processesFlags = 1#8) :
      k.getNewPid = some (1, k.processesFlags ||| 1#8 <<< 1) := by
    rw [Kernel.getNewPid, hflags]
    decide
  have hrun : k₁.runningPid = 1 ∧ k₁.processesFlags = 3#8 := by
    rw [Kernel.execute_launch hexit] at hexec
    rcases Kernel.launch_cases hexec with ⟨r, s, ho, -⟩ | ⟨p, mem, e, -, hp, -, rfl, -⟩
    · cases ho
    rw [hnew (sample_flags hb)] at hp
    obtain ⟨rfl, -⟩ := Prod.mk.inj (Option.some.inj hp)
    refine ⟨runningPid_installed, ?_⟩
    simp only [Kernel.installed, sample_flags hb]
    decide
  rw [hrun.1] at hm
  generalize hk₂ : ({ k₁ with
    console := { k₁.console with
      mem := update k₁.console.mem ((userBlock 1 : ℕ) : ℤ) byte } } : Kernel) = k₂
  have hstore : k₁.userStore sampleBuild virtualStart byte = some k₂ := by
    have hwalk := hm.walk_program (v := virtualStart) (by decide) le_rfl (by decide)
    rw [Kernel.userStore, hwalk, ← hk₂]
    rfl
  have hf₂ : Forest k₂ held := by
    rw [← hk₂]
    exact hf.congr (.io _ k₁.keyboard k₁.devices)
  have hcount : k₂.current.numProcesses ≠ 1 := by
    rw [← hk₂]
    exact fun h ↦ absurd (htwo.symm.trans h) (by decide)
  have hhalt : k₂.step sampleBuild (.halt 0) = some (k₂.retired.resumed k₂.runningPid) :=
    congrArg (Option.map Prod.fst) (hf₂.halt_nested (b := sampleBuild) hcount 0)
  obtain ⟨held', hf', -⟩ := hf₂.step hl hhalt
  have hrun₂ : k₂.runningPid = 1 ∧ k₂.processesFlags = 3#8 ∧ k₂.page 1 0 = byte := by
    rw [← hk₂]
    exact ⟨hrun.1, hrun.2, by simp [Kernel.page]⟩
  have hflags : (k₂.retired.resumed k₂.runningPid).processesFlags = 1#8 := by
    have hpid : (k₂.pcb k₂.runningPid).pid = 1 := by
      rw [hf₂.pid _ (hf₂.running_live hf₂.current), hrun₂.1]
    simp only [Kernel.resumed, Kernel.retired, hpid, hrun₂.2.1]
    decide
  have hpage : (k₂.retired.resumed k₂.runningPid).page 1 0 = byte := hrun₂.2.2
  generalize k₂.retired.resumed k₂.runningPid = u at hhalt hf' hflags hpage
  have hreach : run (Kernel.happen sampleBuild) k₀ (storeAndHalt byte) = some u :=
    run_cons_eq_some.mpr ⟨k₁, hstep, run_cons_eq_some.mpr ⟨k₂, hstore,
      run_cons_eq_some.mpr ⟨u, hhalt, rfl⟩⟩⟩
  have hcan : u.canExecute = true := by
    rw [hf'.canExecute_iff, hnew hflags]
    rfl
  obtain ⟨mem, entry', hlaunch⟩ := Kernel.launch_loadable .syscall hl hcan (hnew hflags)
  rw [← Kernel.execute_launch hexit] at hlaunch
  have hstarts := (Tracked.reachable hb hreach).starts hl hlaunch
  rw [runningPid_installed] at hstarts
  refine ⟨k₀, u, _, entry', hb, hreach, hlaunch, runningPid_installed, ?_⟩
  rw [hstarts.rest 0 (by decide) fun hin ↦ absurd hin.1 (by decide), hpage]

end Sample

/-- What one program has stored in its page the next one of the same pid finds there. -/
theorem page_left_over : ∃ k₁ k₂ u₁ u₂ v₁ v₂ entry₁ entry₂,
    Boots sampleBuild sampleMachine k₁ ∧ Boots sampleBuild sampleMachine k₂ ∧
    run (Kernel.happen sampleBuild) k₁ (storeAndHalt 1) = some u₁ ∧
    run (Kernel.happen sampleBuild) k₂ (storeAndHalt 2) = some u₂ ∧
    u₁.execute sampleBuild (some shellCommand) = some (v₁, .started entry₁) ∧
    u₂.execute sampleBuild (some shellCommand) = some (v₂, .started entry₂) ∧
    v₁.runningPid = v₂.runningPid ∧
    v₁.page v₁.runningPid 0 ≠ v₂.page v₂.runningPid 0 := by
  obtain ⟨k₁, u₁, v₁, entry₁, hb₁, hr₁, hx₁, hp₁, hpage₁⟩ := sample_storeAndHalt 1
  obtain ⟨k₂, u₂, v₂, entry₂, hb₂, hr₂, hx₂, hp₂, hpage₂⟩ := sample_storeAndHalt 2
  refine ⟨k₁, k₂, u₁, u₂, v₁, v₂, entry₁, entry₂, hb₁, hb₂, hr₁, hr₂, hx₁, hx₂,
    hp₁.trans hp₂.symm, ?_⟩
  rw [hp₁, hp₂, hpage₁, hpage₂]
  decide

theorem starts_clean_sample : ∃ u₁ u₂ v₁ v₂ : Kernel,
    (v₁.pcb 1).args = (v₂.pcb 1).args ∧
    (∀ i < fourMb, InProgram sampleImage (startedCommand shellCommand) i →
      v₁.page 1 i = v₂.page 1 i) ∧
    (v₁.page 1 0 = u₁.page 1 0 ∧ v₂.page 1 0 = u₂.page 1 0) ∧ v₁.page 1 0 = 1 ∧
    v₂.page 1 0 = 2 := by
  obtain ⟨k₁, u₁, v₁, entry₁, hb₁, hr₁, hx₁, hp₁, hpage₁⟩ := sample_storeAndHalt 1
  obtain ⟨k₂, u₂, v₂, entry₂, hb₂, hr₂, hx₂, hp₂, hpage₂⟩ := sample_storeAndHalt 2
  obtain ⟨hargs, -, hprogram, hrest⟩ := starts_clean hb₁ hb₂ hr₁ hr₂ hx₁ hx₂ hp₁ hp₂
  refine ⟨u₁, u₂, v₁, v₂, hargs, hprogram, hrest 0 (by decide) fun hin ↦ ?_, hpage₁, hpage₂⟩
  exact absurd hin.1 (by decide)

end ApollOS
