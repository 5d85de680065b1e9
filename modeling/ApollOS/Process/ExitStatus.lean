import ApollOS.Process.Rounds

namespace ApollOS

open Function Runs

variable {b : Build} {m : Machine} {s : StackUse} {k k' k₀ k₁ k₂ : Kernel}
  {held : Fin maxTerminals → List ℕ} {a : Action} {es : List Action} {p q : ℕ}
  {command : Option Command}

/-- `CREATE_EXCEPTION`: the handler prints its message and halts with -1, which becomes a `uint8_t`;
`halt` finds the PCB of process `p`. -/
def Kernel.exception (b : Build) (k : Kernel) (p : ℕ) (message : List UInt8) :
    Option (Kernel × Outcome) :=
  { k with console := k.console.puts (message ++ [10]) }.haltWith b p (UInt8.ofInt (-1))

inductive Ending
  | halted (status : UInt8)
  | exception (message : List UInt8)
  | exited (command : Command) (exit : Kernel.isExit command = true)

namespace Ending

def run (b : Build) (k : Kernel) (p : ℕ) : Ending → Option (Kernel × Outcome)
  | halted status => k.haltWith b p status
  | exception message => k.exception b p message
  | exited command _ => k.executeWith b p (some command)

/-- What the shell expects of `execute`. -/
def expected : Ending → ℤ
  | halted status => status.toNat
  | exception _ => 256
  | exited _ _ => 0

def status : Ending → UInt8
  | halted status => status
  | exception _ => 255
  | exited _ _ => 0

theorem status_eq_expected_iff (e : Ending) :
    (e.status.toNat : ℤ) = e.expected ↔ ∀ message, e ≠ exception message := by
  cases e with
  | halted status => exact iff_of_true rfl fun message he ↦ nomatch he
  | exception message => exact iff_of_false (show (255 : ℤ) ≠ 256 by decide) fun h ↦ h message rfl
  | exited command exit => exact iff_of_true rfl fun message he ↦ nomatch he

end Ending

/-- The process of `execute` has to wait for `p` and the frame it gets back is the
one that this call has saved. -/
structure ChildOf (q : ℕ) (esp : UInt32) (p : ℕ) (k : Kernel) : Prop where
  forest : ∃ held, Forest k held
  live : k.live p
  parent : k.parentOf p = q
  ne : q ≠ p
  frame : (k.pcb p).parentEsp = esp

namespace ChildOf

variable {esp : UInt32}

theorem step (h : ChildOf q esp p k) (hl : Loadable b.image shellCommand)
    (hk : k.step b a = some k') (hstay : ¬ Ends p k a) : ChildOf q esp p k' := by
  obtain ⟨held, hf⟩ := h.forest
  obtain ⟨held', hf', -⟩ := hf.step hl hk
  obtain ⟨hparent, hframe⟩ := hf.step_link hl hk h.live hstay
  exact ⟨⟨held', hf'⟩, hf.step_live hl hk h.live hstay, hparent.trans h.parent, h.ne,
    hframe.trans h.frame⟩

theorem congr (h : ChildOf q esp p k) (hs : SameProcesses k k') : ChildOf q esp p k' := by
  obtain ⟨held, hf⟩ := h.forest
  exact ⟨⟨held, hf.congr hs⟩, hs.live_iff.mpr h.live, (hs.parentPid p).trans h.parent, h.ne,
    (hs.parentEsp p).trans h.frame⟩

theorem nested (h : ChildOf q esp p k) (hrun : k.runningPid = p) : k.current.numProcesses ≠ 1 := by
  obtain ⟨held, hf⟩ := h.forest
  intro hone
  obtain ⟨r, hr⟩ : ∃ r, held k.termCur = [r] := by
    rw [← List.length_eq_one_iff]
    have hcount := hf.numProcesses_eq
    omega
  have htop := hf.toStacked.running_top hr
  have hchain := hf.chain k.termCur hf.current
  have hpid : (k.terminal k.termCur).termPid = r := htop
  rw [hr, hpid, ← htop, hrun] at hchain
  exact h.ne (h.parent.symm.trans hchain.next_of_singleton)

theorem halt (h : ChildOf q esp p k) (hrun : k.runningPid = p) (status : UInt8) :
    ∃ k', k.halt b status = some (k', .resumed status) ∧ k'.runningPid = q ∧ k'.esp0 = esp := by
  obtain ⟨held, hf⟩ := h.forest
  refine ⟨_, hf.halt_nested (h.nested hrun) status, ?_, ?_⟩
  · rw [hf.resumed_runningPid, hrun, h.parent]
  · rw [← h.frame, ← hrun]
    rfl

theorem ending (h : ChildOf q esp p k) (hrun : k.runningPid = p) (e : Ending) :
    ∃ k', e.run b k p = some (k', .resumed e.status) ∧ k'.runningPid = q ∧ k'.esp0 = esp := by
  subst hrun
  cases e with
  | halted status => exact h.halt rfl status
  | exception message =>
    have hs : SameProcesses k { k with console := k.console.puts (message ++ [10]) } :=
      .io _ k.keyboard k.devices
    exact (h.congr hs).halt rfl 255
  | exited command exit =>
    obtain ⟨k', hhalt, hback⟩ := h.halt (b := b) rfl 0
    refine ⟨k', ?_, hback⟩
    have hexec := Kernel.execute_some b k command
    simp only [exit, if_true, hhalt, afterCall] at hexec
    exact hexec

theorem sparesBlock (h : ChildOf q esp p k) (hon : OnStack s k) : SparesBlock s k q := by
  obtain ⟨held, hf⟩ := h.forest
  have hwaits : k.runningPid ≠ q := by
    have hne : k.parentOf p ≠ p := h.parent ▸ h.ne
    exact h.parent ▸ hf.parent_waits hf.current h.live hne
  have hq : q < maxProcesses := by
    obtain ⟨t, ht⟩ := (hf.part.cover p).mp h.live
    exact h.parent ▸ hf.parent_lt ht
  intro mem words hw i hi
  exact hon.spares hf.running_lt hw hq hi
    fun heq ↦ absurd heq.symm hwaits

end ChildOf

def AtLimit (b : Build) (k : Kernel) (command : Option Command) : Prop :=
  ∃ c dentry, command = some c ∧ Kernel.isExit c = false ∧ Program b.image c dentry ∧
    k.canExecute = false

theorem Forest.execute_returned (hf : Forest k held) (hl : Loadable b.image shellCommand) {v : ℤ}
    (h : k.execute b command = some (k', .returned v)) :
    (∃ s, k' = { k with console := k.console.puts s }) ∧
      (AtLimit b k command ∧ v = 0 ∨ ¬ AtLimit b k command ∧ v = -1) := by
  cases command with
  | none =>
    obtain ⟨rfl, ho⟩ := Prod.mk.inj (Option.some.inj h)
    refine ⟨⟨[], rfl⟩, .inr ⟨?_, (Outcome.returned.inj ho).symm⟩⟩
    rintro ⟨c, dentry, hc, -⟩
    cases hc
  | some c =>
    cases hexit : Kernel.isExit c with
    | true =>
      obtain ⟨k₁, o, hhalt, -, hret⟩ := hf.halt_cases hl (.exit hexit) 0
      rw [hf.execute_exit hl hexit, hhalt] at h
      exact absurd (Prod.mk.inj (Option.some.inj h)).2 (hret v)
    | false =>
      rw [Kernel.execute_launch hexit] at h
      by_cases hprog : ∃ dentry, Program b.image c dentry
      · obtain ⟨dentry, hprog⟩ := hprog
        cases hcan : k.canExecute with
        | false =>
          rw [Kernel.launch_of_full hprog hcan] at h
          obtain ⟨rfl, ho⟩ := Prod.mk.inj (Option.some.inj h)
          exact ⟨⟨_, rfl⟩, .inl ⟨⟨c, dentry, rfl, hexit, hprog, hcan⟩,
            (Outcome.returned.inj ho).symm⟩⟩
        | true =>
          obtain ⟨p, hnew⟩ := hf.toStacked.exists_newPid hcan
          rw [Kernel.launch_of_program hprog hcan hnew] at h
          obtain ⟨mem, -, he⟩ := Option.map_eq_some_iff.mp h
          cases (Prod.mk.inj he).2
      · rw [Kernel.launch_of_not_program fun dentry hd ↦ hprog ⟨dentry, hd⟩] at h
        obtain ⟨rfl, ho⟩ := Prod.mk.inj (Option.some.inj h)
        refine ⟨⟨[], rfl⟩, .inr ⟨?_, (Outcome.returned.inj ho).symm⟩⟩
        rintro ⟨c', dentry, hc, -, hd, -⟩
        obtain rfl := Option.some.inj hc
        exact hprog ⟨dentry, hd⟩

theorem Forest.execute_child (hf : Forest k held) (hl : Loadable b.image shellCommand) {c : Command}
    {entry : UInt32} (hexit : Kernel.isExit c = false)
    (h : k.execute b (some c) = some (k₁, .started entry)) :
    ChildOf k.runningPid (k.esp0 - b.depth .syscall) k₁.runningPid k₁ := by
  obtain ⟨held₁, hf₁, -⟩ := hf.step hl (Kernel.step_execute h)
  rw [Kernel.execute_launch hexit] at h
  rcases Kernel.launch_cases h with ⟨v, s, ho, -⟩ | ⟨p, mem, e, -, hnew, -, rfl, -⟩
  · cases ho
  have hrun := hf.running_live hf.current
  have hcount : k.current.numProcesses ≠ 0 := by
    have hpos := List.length_pos_iff.mpr hf.current
    rw [hf.numProcesses_eq]
    omega
  have hpid : (k.installed b .syscall p (commandArgs c.text) mem).runningPid = p :=
    runningPid_installed
  refine ⟨⟨held₁, hf₁⟩, hf₁.running_live hf₁.current, ?_, ?_, ?_⟩
  · rw [hpid]
    simp only [Kernel.parentOf, Kernel.installed, update_self, if_neg hcount]
    rfl
  · rw [hpid]
    exact Kernel.fresh_ne hnew hrun
  · rw [hpid]
    simp only [Kernel.installed, update_self]

/-- What the caller of `execute` gets on a run on which the kernel stacks hold out. If nothing is
started it is -1, unless the limit of processes is reached; and whatever the process that was
started does and starts in its turn, the stack of the caller is left alone and the end of the
process brings the caller back to this call of `execute` with what is expected, unless the end is
an exception. -/
theorem exit_status (hb : Boots b m k₀) (hr : RunsOnStack b s k₀ es k) (command : Option Command) :
    (∀ k' v, k.executeWith b (k.currentPid (s.atPcb .execute)) command = some (k', .returned v) →
      (v = -1 ↔ ¬ AtLimit b k command)) ∧
    ∀ c k₁ entry, command = some c → Kernel.isExit c = false →
      k.executeWith b (k.currentPid (s.atPcb .execute)) command = some (k₁, .started entry) →
      ∀ es' k₂, RunsOnStack b s k₁ es' k₂ →
        (∀ u a, Visits (Kernel.stepOnStack b s) k₁ es' u a → ¬ Ends k₁.runningPid u a) →
        (∀ u, Passes (Kernel.stepOnStack b s) k₁ es' u → SparesBlock s u k.runningPid) ∧
        (k₂.runningPid = k₁.runningPid → ∀ e : Ending, ∀ used ≤ s.most,
          ∃ k' st, e.run b k₂ (k₂.currentPid used) = some (k', .resumed st) ∧
            k'.runningPid = k.runningPid ∧ k'.esp0 = k.esp0 - b.depth .syscall ∧
            ((st.toNat : ℤ) = e.expected ↔ ∀ message, e ≠ .exception message)) := by
  have hl := (boots_cases hb).1
  obtain ⟨held, hf⟩ := hr.forest hb
  rw [hr.currentPid_eq hb (s.atPcb_le _)]
  refine ⟨fun k' v h ↦ ?_, fun c k₁ entry hc hexit h es' k₂ hr' hstay ↦ ?_⟩
  · rcases (hf.execute_returned hl h).2 with ⟨hlimit, rfl⟩ | ⟨hlimit, rfl⟩
    · exact iff_of_false (by decide) fun hno ↦ hno hlimit
    · exact iff_of_true rfl hlimit
  · subst hc
    obtain ⟨held₁, hf₁, -⟩ := hf.step hl (Kernel.step_execute h)
    have hchild {u : Kernel} (hu : Passes (Kernel.stepOnStack b s) k₁ es' u) :
        ChildOf k.runningPid (k.esp0 - b.depth .syscall) k₁.runningPid u :=
      hr'.invariant (fun _ hv ↦ hv.forest) (fun _ _ _ hv hs hno ↦ hv.step hl hs hno)
        (hf.execute_child hl hexit h) hstay hu
    refine ⟨fun u hu ↦ (hchild hu).sparesBlock (hr'.room u hu), fun hrun e used hused ↦ ?_⟩
    have hend := hchild (.stop hr'.run)
    obtain ⟨held₂, hf₂⟩ := hend.forest
    have hpid₂ : k₂.currentPid used = k₁.runningPid :=
      (hr'.onStack.currentPid_eq hf₂.running_lt hused).trans hrun
    obtain ⟨k', hended, hback, hframe⟩ := hend.ending hrun e
    exact ⟨k', e.status, hpid₂ ▸ hended, hback, hframe, e.status_eq_expected_iff⟩

/-- The shell cannot tell an exception of its child from a program that returns 255. -/
theorem exception_not_256 : ∃ k₀ k₁ k₂ entry, Boots sampleBuild sampleMachine k₀ ∧
    k₀.execute sampleBuild (some shellCommand) = some (k₁, .started entry) ∧
    k₁.exception sampleBuild (k₁.currentPid 100) (ascii "Divide Error") =
      some (k₂, .resumed 255) ∧
    k₁.haltWith sampleBuild (k₁.currentPid 100) 255 =
      some (k₁.retired.resumed k₁.runningPid, .resumed 255) ∧
    k₂.runningPid = k₀.runningPid := by
  obtain ⟨k₀, k₁, entry, held, hb, hexec, hf, htwo⟩ := sample_child
  have hl := (boots_cases hb).1
  have hchild := (boots_forest hb).execute_child hl (by decide) hexec
  obtain ⟨htop, hlt⟩ := Kernel.execute_top (by decide) hexec
  have hon : OnStack sampleUse k₁ := .of_top htop hlt (by decide)
  obtain ⟨k₂, hend, hback, -⟩ := hchild.ending rfl (.exception (ascii "Divide Error"))
  have hpid : k₁.currentPid 100 = k₁.runningPid := hon.currentPid_eq hlt (by decide)
  refine ⟨k₀, k₁, k₂, entry, hb, hexec, ?_, ?_, hback⟩
  · rw [hpid]
    exact hend
  · rw [hpid]
    exact hf.halt_nested (hchild.nested rfl) 255

/-- The child has a program of its own executed before it ends. -/
theorem exit_status_sample : ∃ k₀ k₁ k₂ k' st entry, Boots sampleBuild sampleMachine k₀ ∧
    k₀.execute sampleBuild (some shellCommand) = some (k₁, .started entry) ∧
    run (Kernel.stepOnStack sampleBuild sampleUse) k₁ (rounds shellCommand 1) = some k₂ ∧
    (Ending.halted 7).run sampleBuild k₂ (k₂.currentPid 100) = some (k', .resumed st) ∧
    k'.runningPid = k₀.runningPid ∧ (st.toNat : ℤ) = 7 := by
  obtain ⟨k₀, k₁, entry, held, hb, hexec, hf, -⟩ := sample_child
  have hon := boots_onStack (s := sampleUse) hb (by decide)
  have hf₀ := boots_forest hb
  have hpid := hon.currentPid_eq hf₀.running_lt (sampleUse.atPcb_le .execute)
  have hexec' : k₀.executeWith sampleBuild (k₀.currentPid (sampleUse.atPcb .execute))
      (some shellCommand) = some (k₁, .started entry) := by
    rw [hpid]
    exact hexec
  obtain ⟨htop, -⟩ := Kernel.execute_top (by decide) hexec
  obtain ⟨k₂, hr, hrounded, hv, hend⟩ :=
    sample_rounds hf (boots_child_canExecute hb (by decide) hexec) htop (n := 1) (by decide)
  obtain ⟨-, hstarted⟩ := exit_status hb (.nil hon) (some shellCommand)
  obtain ⟨-, hback⟩ := hstarted shellCommand k₁ entry rfl (by decide) hexec' _ k₂
    (.of_visits hr (fun u a h ↦ (hv u a h).1) (hend (by decide))) fun u a h ↦ (hv u a h).2
  obtain ⟨k', st, hended, hcaller, -, hvalue⟩ := hback hrounded.runningPid (.halted 7) 100
    (by decide)
  exact ⟨k₀, k₁, k₂, k', st, entry, hb, hexec, hr, hended, hcaller,
    hvalue.mpr fun _ he ↦ nomatch he⟩

end ApollOS
