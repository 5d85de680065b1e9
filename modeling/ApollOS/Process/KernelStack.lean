import ApollOS.Process.ProcessForest

namespace ApollOS

open Function Runs

variable {b : Build} {m : Machine} {k k' k₀ : Kernel} {a : Action} {es : List Action} {p q : ℕ}

/-- The bytes of an 8 KB block that a stack growing down from its top may use. -/
def kernelStackSize : ℕ := eightKbBlock - magicSize

/-- The kernel stack of the running process is its own: it starts at the top of
the process's block, and from anywhere in it `get_current_pcb` finds the PCB. -/
structure OwnStack (k : Kernel) : Prop where
  top : k.esp0 = kernelStackTop k.runningPid
  pcb : ∀ used ≤ kernelStackSize,
    getCurrentPcb (k.esp0 - used.toUInt32) = getPcb k.runningPid

/-- The running process gives up while others of its terminal are waiting for it. -/
def ReturnsToParent (k : Kernel) (a : Action) : Prop := Leaves a ∧ k.current.numProcesses ≠ 1

section Addresses

theorem kernelStackTop_toNat (hp : p < maxProcesses) :
    (kernelStackTop p).toNat = physicalStart - p * eightKbBlock - magicSize := by
  simp only [maxProcesses] at hp
  interval_cases p <;> decide

theorem getPcb_toNat (hp : p < maxProcesses) :
    (getPcb p).toNat = physicalStart - (p + 1) * eightKbBlock := by
  simp only [maxProcesses] at hp
  interval_cases p <;> decide

theorem and_pcbMask {x : ℕ} (hx : x < 2 ^ 24) :
    x &&& pcbMask.toNat = x / eightKbBlock * eightKbBlock := by
  have hmask : pcbMask.toNat = (2 ^ 11 - 1) <<< 13 := by decide
  have hblock : x / eightKbBlock * eightKbBlock = (x >>> 13) <<< 13 := by
    rw [Nat.shiftRight_eq_div_pow, Nat.shiftLeft_eq]
    rfl
  rw [hmask, hblock]
  refine Nat.eq_of_testBit_eq fun i ↦ ?_
  simp only [Nat.testBit_and, Nat.testBit_shiftLeft, Nat.testBit_two_pow_sub_one,
    Nat.testBit_shiftRight]
  by_cases hlow : 13 ≤ i
  · have hi : 13 + (i - 13) = i := by omega
    by_cases hhigh : i < 24
    · have hbit : i - 13 < 11 := by omega
      simp [hlow, hbit, hi]
    · have hzero : x.testBit i = false :=
        Nat.testBit_lt_two_pow (hx.trans_le (Nat.pow_le_pow_right (by omega) (by omega)))
      simp [hi, hzero]
  · simp [hlow]

theorem getCurrentPcb_eq (hp : p < maxProcesses) {used : ℕ} (hu : used ≤ kernelStackSize) :
    getCurrentPcb (kernelStackTop p - used.toUInt32) = getPcb p := by
  have htop := kernelStackTop_toNat hp
  simp only [maxProcesses, kernelStackSize, physicalStart, eightKbBlock, magicSize] at hp hu htop
  have hused : used.toUInt32.toNat = used := by
    simpa using Nat.mod_eq_of_lt (show used < 2 ^ 32 by omega)
  have hle : used.toUInt32 ≤ kernelStackTop p := by
    rw [UInt32.le_iff_toNat_le, hused, htop]
    omega
  have hesp : (kernelStackTop p - used.toUInt32).toNat = 8388608 - p * 8192 - 4 - used := by
    rw [UInt32.toNat_sub_of_le _ _ hle, hused, htop]
  refine UInt32.toNat_inj.mp ?_
  rw [getCurrentPcb, UInt32.toNat_and, hesp, and_pcbMask (by omega), getPcb_toNat hp]
  simp only [physicalStart, eightKbBlock]
  omega

theorem kernelStackTop_sub_ne {depth : UInt32} (hd : 0 < depth) :
    kernelStackTop p - depth ≠ kernelStackTop p := by
  generalize kernelStackTop p = top
  intro h
  have hzero : depth = 0 := by grind
  rw [hzero] at hd
  exact absurd hd (by decide)

end Addresses

theorem ownStack_iff (hp : k.runningPid < maxProcesses) :
    OwnStack k ↔ k.esp0 = kernelStackTop k.runningPid := by
  refine ⟨OwnStack.top, fun h ↦ ⟨h, fun used hu ↦ ?_⟩⟩
  rw [h]
  exact getCurrentPcb_eq hp hu

/-- What `halt` finds in the PCB of a process that has a parent: the stack
pointer with which the parent entered `execute`. -/
def StackLinks (b : Build) (k : Kernel) : Prop :=
  ∀ p, k.live p → k.parentOf p ≠ p →
    (k.pcb p).parentEsp = kernelStackTop (k.parentOf p) - b.depth .syscall

theorem StackLinks.congr (h : StackLinks b k) (hs : SameProcesses k k') : StackLinks b k' := by
  intro p hp hne
  have hparent : k'.parentOf p = k.parentOf p := hs.parentPid p
  rw [hparent] at hne ⊢
  rw [hs.parentEsp]
  exact h p (hs.live_iff.mp hp) hne

theorem StackLinks.of_eq (h : StackLinks b k) (hflags : k'.processesFlags = k.processesFlags)
    (hpcb : k'.pcb = k.pcb) : StackLinks b k' := by
  intro p hp hne
  simp only [Kernel.live, Kernel.parentOf, hflags, hpcb] at hp hne ⊢
  exact h p hp hne

theorem StackLinks.installed_root {site : CallSite} {args : List UInt8} {mem : Memory}
    (h : StackLinks b k) (hp : p < maxProcesses) (hzero : k.current.numProcesses = 0) :
    StackLinks b (k.installed b site p args mem) := by
  intro q hq hne
  by_cases hqp : q = p
  · subst hqp
    exact absurd (by simp [Kernel.parentOf, Kernel.installed, hzero]) hne
  · have hlive := ((Kernel.getLsbD_set hp).mp hq).resolve_right hqp
    simp only [Kernel.parentOf, Kernel.installed, update_of_ne hqp] at hne ⊢
    exact h q hlive hne

theorem StackLinks.installed_syscall {args : List UInt8} {mem : Memory} (h : StackLinks b k)
    (hp : p < maxProcesses) (htop : k.esp0 = kernelStackTop k.runningPid)
    (hne : k.current.numProcesses ≠ 0) :
    StackLinks b (k.installed b .syscall p args mem) := by
  intro q hq hparent
  by_cases hqp : q = p
  · subst hqp
    simp only [Kernel.parentOf, Kernel.installed, update_self, if_neg hne, htop]
    rfl
  · have hlive := ((Kernel.getLsbD_set hp).mp hq).resolve_right hqp
    simp only [Kernel.parentOf, Kernel.installed, update_of_ne hqp] at hparent ⊢
    exact h q hlive hparent

theorem StackLinks.retired {held : Fin maxTerminals → List ℕ} (h : StackLinks b k)
    (hf : Forest k held) : StackLinks b k.retired := fun p hp hne ↦
  h p ((hf.live_retired hf.current).mp hp).1 hne

def StackInv (b : Build) (k : Kernel) : Prop := (∃ held, Forest k held) ∧ StackLinks b k

theorem StackInv.step (hi : StackInv b k) (hl : Loadable b.image shellCommand)
    (ho : OwnStack k) (hk : k.step b a = some k') : StackInv b k' := by
  obtain ⟨⟨held, hf⟩, hlinks⟩ := hi
  obtain ⟨held', hf', -⟩ := hf.step hl hk
  refine ⟨⟨held', hf'⟩, ?_⟩
  have hcount : k.current.numProcesses ≠ 0 := by
    have hpos := List.length_pos_iff.mpr hf.current
    rw [hf.numProcesses_eq]
    omega
  cases hf.transition hl hk with
  | quiet _ hs => exact hlinks.congr hs.toSameProcesses
  | vidmap hs =>
    have hv : StackLinks b (k.videoMapped b) := hlinks
    exact hv.congr hs.toSameProcesses
  | launch _ hnew =>
    exact hlinks.installed_syscall (Kernel.getNewPid_eq_some hnew).1 ho.top hcount
  | respawn _ hone hnew =>
    refine (hlinks.retired hf).installed_root (Kernel.getNewPid_eq_some hnew).1 ?_
    rw [Kernel.retired_numProcesses, hone, sub_self]
  | resume => exact hlinks.retired hf
  | load => exact hlinks.of_eq rfl rfl
  | @start term p mem hterm hinit hnew =>
    have hbegun : StackLinks b ((k.leftFor term).begun term) :=
      StackLinks.of_eq (k := k.leftFor term) (hlinks.of_eq rfl rfl) Kernel.begun_flags
        Kernel.begun_pcb
    refine hbegun.installed_root (Kernel.getNewPid_eq_some hnew).1 ?_
    have hs := ((hf.toStacked.congr (.terminalSave k.termCur)).setCur term).begun term
    have hnil : held term = [] := by
      by_contra hne
      simp [(hf.started term).mpr hne] at hinit
    have hzero := hs.count term
    rw [hnil] at hzero
    rw [Kernel.current, Kernel.begun_termCur]
    exact hzero

/-- One step on the process's own stack ends on the running process's own stack,
unless it goes back into a parent. -/
theorem ownStack_step_iff (hi : StackInv b k) (hl : Loadable b.image shellCommand)
    (ho : OwnStack k) (hk : k.step b a = some k') : OwnStack k' ↔ ¬ ReturnsToParent k a := by
  obtain ⟨⟨held', hf'⟩, -⟩ := hi.step hl ho hk
  obtain ⟨⟨held, hf⟩, hlinks⟩ := hi
  rw [ownStack_iff hf'.running_lt]
  cases hf.transition hl hk with
  | quiet hleaves hs =>
    rw [hs.esp0, hs.runningPid_eq]
    exact iff_of_true ho.top fun h ↦ hleaves h.1
  | vidmap hs =>
    rw [hs.esp0, hs.runningPid_eq]
    exact iff_of_true (show (k.videoMapped b).esp0 = _ from ho.top) fun ⟨h, _⟩ ↦ nomatch h
  | launch hexit =>
    rw [runningPid_installed]
    refine iff_of_true rfl ?_
    rintro ⟨⟨⟩ | hexit', -⟩
    simp [hexit] at hexit'
  | respawn _ hone =>
    rw [runningPid_installed]
    exact iff_of_true rfl fun h ↦ h.2 hone
  | resume hleaves hne =>
    obtain ⟨q, l, hq⟩ := List.exists_cons_of_ne_nil hf.current
    have hl : l ≠ [] := by
      rintro rfl
      rw [hf.numProcesses_eq, hq] at hne
      exact hne rfl
    have hrun := hf.toStacked.running_top hq
    have hchain := hf.chain k.termCur hf.current
    have hpid : (k.terminal k.termCur).termPid = q := hrun
    rw [hq, hpid] at hchain
    have hparent : k.parentOf k.runningPid ≠ k.runningPid := hrun ▸ (hchain.tail hl).1
    have hlt : k.parentOf k.runningPid < maxProcesses :=
      hf.toStacked.parent_lt (hf.running_mem hf.current)
    have hpid' : (k.retired.resumed k.runningPid).runningPid = k.parentOf k.runningPid := by
      have hmod := Nat.mod_eq_of_lt (hlt.trans (show maxProcesses < 256 by decide))
      have hterm := Kernel.resumed_terminal_current k.retired k.runningPid
      exact (congrArg Terminal.termPid hterm).trans hmod
    have hesp : (k.retired.resumed k.runningPid).esp0 =
        kernelStackTop (k.parentOf k.runningPid) - b.depth .syscall :=
      hlinks _ (hf.running_live hf.current) hparent
    rw [hpid', hesp]
    exact iff_of_false (kernelStackTop_sub_ne (b.depth_pos _)) fun h ↦ h ⟨hleaves, hne⟩
  | load hterm =>
    rw [runningPid_terminalLoad]
    refine iff_of_true ?_ fun ⟨h, _⟩ ↦ nomatch h
    exact congrArg kernelStackTop (Kernel.leftFor_sameStack k _).termPid
  | start hterm =>
    rw [runningPid_installed]
    exact iff_of_true rfl fun ⟨h, _⟩ ↦ nomatch h

theorem boots_stackInv (h : Boots b m k) : StackInv b k ∧ OwnStack k := by
  have hf := boots_forest h
  obtain ⟨-, mem, rfl⟩ := boots_cases h
  refine ⟨⟨⟨_, hf⟩, ?_⟩, ?_⟩
  · refine StackLinks.installed_root (fun p hp _ ↦ ?_) (by decide) ?_
    · obtain ⟨t, ht⟩ := (Machine.ready_stacked.part.cover p).mp hp
      simp at ht
    · exact Machine.ready_stacked.count _
  · rw [ownStack_iff hf.running_lt, runningPid_installed]
    rfl

/-- In a run the kernel stack of the process in user mode is its own all along
exactly as long as no process that has a parent gives up. -/
theorem ownStack_iff_no_return (hb : Boots b m k₀) (hr : run (Kernel.step b) k₀ es = some k) :
    (∀ u, Passes (Kernel.step b) k₀ es u → OwnStack u) ↔
      ∀ u a, Visits (Kernel.step b) k₀ es u a → ¬ ReturnsToParent u a := by
  have hl := (boots_cases hb).1
  obtain ⟨hi, ho⟩ := boots_stackInv hb
  exact forall_passes_iff (J := StackInv b) (fun k a k' hi ho hk ↦ hi.step hl ho hk)
    (fun k a k' hi ho hk ↦ ownStack_step_iff hi hl ho hk) ho hi hr

section Sample

def runAndReturn : List Action := [.execute (some shellCommand), .halt 0]

theorem sample_runAndReturn : ∃ k₀ k₁ k, Boots sampleBuild sampleMachine k₀ ∧
    Kernel.step sampleBuild k₀ (.execute (some shellCommand)) = some k₁ ∧
    Kernel.step sampleBuild k₁ (.halt 0) = some k ∧ k₁.current.numProcesses = 2 := by
  obtain ⟨k₀, k₁, entry, held, hb, hexec, hf, htwo⟩ := sample_child
  have hstep := Kernel.step_execute hexec
  have hhalt := hf.halt_nested (b := sampleBuild) (by rw [htwo]; decide) 0
  exact ⟨k₀, k₁, _, hb, hstep, congrArg (Option.map Prod.fst) hhalt, htwo⟩

end Sample

/-- After the first program the shell has run, its kernel stack no longer starts
at its top. -/
theorem ownStack_lost : ∃ k₀ k, Boots sampleBuild sampleMachine k₀ ∧
    run (Kernel.step sampleBuild) k₀ runAndReturn = some k ∧ ¬ OwnStack k := by
  obtain ⟨k₀, k₁, k, hb, hexec, hhalt, hcount⟩ := sample_runAndReturn
  have hl := (boots_cases hb).1
  obtain ⟨hi, ho⟩ := boots_stackInv hb
  have hexit : ¬ ReturnsToParent k₀ (.execute (some shellCommand)) := by
    rintro ⟨⟨⟩ | hexit, -⟩
    exact absurd hexit (by decide)
  have ho₁ := (ownStack_step_iff hi hl ho hexec).mpr hexit
  refine ⟨k₀, k, hb, ?_, fun h ↦ ?_⟩
  · exact run_cons_eq_some.mpr ⟨k₁, hexec, run_cons_eq_some.mpr ⟨k, hhalt, rfl⟩⟩
  · refine (ownStack_step_iff (hi.step hl ho hexec) hl ho₁ hhalt).mp h ⟨.halt 0, ?_⟩
    rw [hcount]
    decide

/-- The first shell runs another one, and the user changes to the second terminal and back. -/
theorem ownStack_iff_no_return_sample : ∃ k₀ k, Boots sampleBuild sampleMachine k₀ ∧
    run (Kernel.step sampleBuild) k₀ [.execute (some shellCommand), .console (.switch 1),
      .console (.switch 0)] = some k ∧ (k.terminal 0).numProcesses = 2 ∧
    ∀ u, Passes (Kernel.step sampleBuild) k₀ [.execute (some shellCommand), .console (.switch 1),
      .console (.switch 0)] u → OwnStack u := by
  obtain ⟨k₀, k₁, entry, held, hb, hexec, hf, hcur, htwo, hnew, hroom⟩ := sample_inner
  obtain ⟨k₂, k, -, haway, hback, -, -, hcount, -⟩ :=
    hf.away_and_back (boots_cases hb).1 hcur htwo hnew hroom
  have hr : run (Kernel.step sampleBuild) k₀ [.execute (some shellCommand), .console (.switch 1),
      .console (.switch 0)] = some k := by
    rw [run_cons_of (Kernel.step_execute hexec), run_cons_of haway, run_cons_of hback]
    rfl
  refine ⟨k₀, k, hb, hr, hcount, (ownStack_iff_no_return hb hr).mpr fun u a hv hreturns ↦ ?_⟩
  rcases visits_next (Kernel.step_execute hexec) hv with ⟨rfl, rfl⟩ | hv
  · rcases hreturns.1 with _ | hexit
    exact absurd hexit (by decide)
  rcases visits_next haway hv with ⟨rfl, rfl⟩ | hv
  · cases hreturns.1
  · obtain ⟨rfl, rfl⟩ := visits_singleton hv
    cases hreturns.1

end ApollOS
