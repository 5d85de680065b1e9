import ApollOS.Process.Forest

namespace ApollOS

open Function

variable {b : Build} {k k' : Kernel} {held : Fin maxTerminals → List ℕ} {a : Action} {p : ℕ}

/-- The running process gives up: it halts, or has "exit" executed. -/
inductive Leaves : Action → Prop
  | halt (status : UInt8) : Leaves (.halt status)
  | exit {command : Command} : Kernel.isExit command = true → Leaves (.execute (some command))

/-- The current terminal's state is put away for the sake of another terminal. -/
def Kernel.leftFor (k : Kernel) (term : Fin maxTerminals) : Kernel :=
  { k.terminalSave k.termCur with termCur := term }

/-- The video page is mapped behind the user page. -/
def Kernel.videoMapped (b : Build) (k : Kernel) : Kernel :=
  { k with paging := k.paging.remapWithPageTable b virtualEnd (vidMemLoc * fourKb) }

/-- The processes whose descriptors an action is about: the one that calls. -/
def Kernel.caller (k : Kernel) (a : Action) : Set ℕ :=
  {p | p = k.runningPid ∧ ∃ call, a = .fdCall call}

/-- Whatever an action does to processes, terminals, page tables and the kernel
stack. -/
inductive Transition (b : Build) (k : Kernel) : Action → Kernel → Prop
  | quiet {a : Action} {k' : Kernel} : ¬ Leaves a → Local (k.caller a) k k' → Transition b k a k'
  | vidmap {ptr : UInt32} {k' : Kernel} :
    Local ∅ (k.videoMapped b) k' → Transition b k (.vidmap ptr) k'
  | launch {command : Command} {p : ℕ} {mem : Memory} : Kernel.isExit command = false →
    k.getNewPid = some (p, k.processesFlags ||| 1#8 <<< p) →
    Transition b k (.execute (some command))
      (k.installed b .syscall p (commandArgs command.text) mem)
  | respawn {a : Action} {p : ℕ} {mem : Memory} : Leaves a → k.current.numProcesses = 1 →
    k.retired.getNewPid = some (p, k.retired.processesFlags ||| 1#8 <<< p) →
    Transition b k a (k.retired.installed b .halt p (commandArgs shellCommand.text) mem)
  | resume {a : Action} : Leaves a → k.current.numProcesses ≠ 1 →
    Transition b k a (k.retired.resumed k.runningPid)
  | load {term : Fin maxTerminals} : term ≠ k.termCur → (k.terminal term).init = true →
    Transition b k (.console (.switch term)) ((k.leftFor term).terminalLoad term)
  | start {term : Fin maxTerminals} {p : ℕ} {mem : Memory} : term ≠ k.termCur →
    (k.terminal term).init = false →
    ((k.leftFor term).begun term).getNewPid =
      some (p, ((k.leftFor term).begun term).processesFlags ||| 1#8 <<< p) →
    Transition b k (.console (.switch term))
      (((k.leftFor term).begun term).installed b .terminalStart p (commandArgs shellCommand.text)
        mem)

namespace Kernel

theorem halt_eq (status : UInt8) : k.halt b status =
    afterCall (if k.retired.current.numProcesses = 0 then k.retired.launch b .halt shellCommand
      else some (k.retired, .returned 0)) fun k₁ ↦
    afterCall (if k₁.processesFlags = 0 then k₁.launch b .halt shellCommand
      else some (k₁, .returned 0)) fun k₂ ↦
    some (k₂.resumed k.runningPid, .resumed status) := rfl

theorem terminalStart_eq (term : Fin maxTerminals) : k.terminalStart b term =
    afterCall ((k.begun term).launch b .terminalStart shellCommand) fun k ↦
      some (k, .returned 0) := rfl

theorem switchTerminal_eq {term : Fin maxTerminals} (hne : term ≠ k.termCur)
    (hroom : ¬ ((k.terminal term).init = false ∧ k.canExecute = false)) :
    k.switchTerminal b term =
      if (k.terminal term).init = false then
        afterCall ((k.leftFor term).terminalStart b term) fun k ↦ some (k, .returned 0)
      else some ((k.leftFor term).terminalLoad term, .returned 0) := by
  have hinit : ((k.leftFor term).terminal term).init = (k.terminal term).init :=
    (SameProcesses.terminalSave k.termCur).init term
  rw [switchTerminal, if_neg hne, if_neg hroom, ← hinit]
  rfl

theorem switchTerminal_load {term : Fin maxTerminals} (hne : term ≠ k.termCur)
    (hinit : (k.terminal term).init = true) :
    k.switchTerminal b term = some ((k.leftFor term).terminalLoad term, .returned 0) := by
  rw [switchTerminal_eq hne (by simp [hinit]), if_neg (by simp [hinit])]

theorem step_execute {command : Option Command} {o : Outcome}
    (h : k.execute b command = some (k', o)) : k.step b (.execute command) = some k' :=
  congrArg (Option.map Prod.fst) h

theorem execute_launch {command : Command} (h : isExit command = false) :
    k.execute b (some command) = k.launch b .syscall command := by
  simp only [execute_some, h, Bool.false_eq_true, if_false]

theorem vidmap_cases {ptr : UInt32} {r : ℤ} (hk : k.vidmap b ptr = some (k', r)) :
    (k' = k ∧ r = -1) ∨ ∃ mem, r = 0 ∧
      storeBytes b (k.videoMapped b).paging [0, 0, 0x40, 0x08] ptr.toNat k.console.mem = some mem ∧
      k' = { k.videoMapped b with console := { k.console with mem := mem } } := by
  unfold vidmap at hk
  split at hk
  · obtain ⟨rfl, rfl⟩ := Prod.mk.inj (Option.some.inj hk)
    exact .inl ⟨rfl, rfl⟩
  · split at hk
    · obtain ⟨rfl, rfl⟩ := Prod.mk.inj (Option.some.inj hk)
      exact .inl ⟨rfl, rfl⟩
    · obtain ⟨mem, hmem, he⟩ := Option.map_eq_some_iff.mp hk
      obtain ⟨rfl, rfl⟩ := Prod.mk.inj he
      exact .inr ⟨mem, rfl, hmem, rfl⟩

theorem retired_numProcesses :
    k.retired.current.numProcesses = k.current.numProcesses - 1 := by
  simp [current, retired]

theorem halt_last {status : UInt8} {entry : UInt32} (hone : k.current.numProcesses = 1)
    (h : k.retired.launch b .halt shellCommand = some (k', .started entry)) :
    k.halt b status = some (k', .started entry) := by
  have hzero : k.retired.current.numProcesses = 0 := by
    rw [retired_numProcesses, hone, sub_self]
  rw [halt_eq, if_pos hzero, h]
  rfl

theorem halt_nested {status : UInt8} (hne : k.current.numProcesses ≠ 1)
    (hflags : k.retired.processesFlags ≠ 0) :
    k.halt b status = some (k.retired.resumed k.runningPid, .resumed status) := by
  have hpos : k.retired.current.numProcesses ≠ 0 := by
    rw [retired_numProcesses]
    omega
  rw [halt_eq, if_neg hpos]
  simp only [afterCall, if_neg hflags]

end Kernel

namespace Forest

theorem congr (h : Forest k held) (hs : SameProcesses k k') : Forest k' held where
  __ := h.toStacked.congr hs
  started t := by rw [hs.init, h.started]
  current := by rw [hs.termCur]; exact h.current

theorem numProcesses_eq (h : Forest k held) :
    k.current.numProcesses = (held k.termCur).length := h.count _

theorem running_lt (h : Forest k held) : k.runningPid < maxProcesses :=
  h.bound _ (h.running_live h.current)

theorem retired_launch (h : Forest k held) (hl : Loadable b.image shellCommand)
    (hone : k.current.numProcesses = 1) :
    ∃ p mem entry, k.retired.getNewPid = some (p, k.retired.processesFlags ||| 1#8 <<< p) ∧
      k.retired.launch b .halt shellCommand = some
        (k.retired.installed b .halt p (commandArgs shellCommand.text) mem, .started entry) := by
  obtain ⟨p, hp⟩ : ∃ p, held k.termCur = [p] := by
    rw [← List.length_eq_one_iff]
    have hcount := h.numProcesses_eq
    omega
  have hs := h.toStacked.retired_last hp
  have hcan : k.retired.canExecute = true := by
    rw [hs.canExecute_iff, Kernel.getNewPid_isSome_iff]
    refine ⟨k.runningPid, h.running_lt, fun hlive ↦ ?_⟩
    exact ((h.live_retired h.current).mp hlive).2 rfl
  obtain ⟨q, hq⟩ := hs.exists_newPid hcan
  obtain ⟨mem, entry, hlaunch⟩ := Kernel.launch_loadable .halt hl hcan hq
  exact ⟨q, mem, entry, hq, hlaunch⟩

theorem halt_last (h : Forest k held) (hl : Loadable b.image shellCommand)
    (hone : k.current.numProcesses = 1) (status : UInt8) :
    ∃ p mem entry, k.retired.getNewPid = some (p, k.retired.processesFlags ||| 1#8 <<< p) ∧
      k.halt b status = some
        (k.retired.installed b .halt p (commandArgs shellCommand.text) mem, .started entry) := by
  obtain ⟨p, mem, entry, hp, hlaunch⟩ := h.retired_launch hl hone
  exact ⟨p, mem, entry, hp, Kernel.halt_last hone hlaunch⟩

theorem exists_beneath (h : Forest k held) (hne : k.current.numProcesses ≠ 1) :
    ∃ q l, held k.termCur = q :: l ∧ l ≠ [] := by
  obtain ⟨q, l, hq⟩ := List.exists_cons_of_ne_nil h.current
  refine ⟨q, l, hq, ?_⟩
  rintro rfl
  rw [h.numProcesses_eq, hq] at hne
  exact hne rfl

theorem halt_nested (h : Forest k held) (hne : k.current.numProcesses ≠ 1) (status : UInt8) :
    k.halt b status = some (k.retired.resumed k.runningPid, .resumed status) := by
  refine Kernel.halt_nested hne fun hzero ↦ ?_
  obtain ⟨p, l, hc, hl⟩ := h.exists_beneath hne
  obtain ⟨q, l', rfl⟩ := List.exists_cons_of_ne_nil hl
  have hlive : k.retired.live q :=
    ((h.toStacked.part_retired hc).cover q).mpr ⟨k.termCur, by simp⟩
  rw [Kernel.live, hzero] at hlive
  simp at hlive

theorem halt_cases (h : Forest k held) (hl : Loadable b.image shellCommand) (ha : Leaves a)
    (status : UInt8) : ∃ k₁ o, k.halt b status = some (k₁, o) ∧ Transition b k a k₁ ∧
      ∀ v, o ≠ .returned v := by
  by_cases hone : k.current.numProcesses = 1
  · obtain ⟨p, mem, entry, hp, hhalt⟩ := h.halt_last hl hone status
    exact ⟨_, _, hhalt, .respawn ha hone hp, by simp⟩
  · exact ⟨_, _, h.halt_nested hone status, .resume ha hone, by simp⟩

theorem execute_exit (h : Forest k held) (hl : Loadable b.image shellCommand) {command : Command}
    (hexit : Kernel.isExit command = true) : k.execute b (some command) = k.halt b 0 := by
  obtain ⟨k₁, o, hhalt, -, hret⟩ := h.halt_cases hl (.exit hexit) 0
  simp only [Kernel.execute_some, hexit, if_true, hhalt]
  cases o with
  | returned v => exact absurd rfl (hret v)
  | started entry => rfl
  | resumed status => rfl

theorem execute_transition (h : Forest k held) (hl : Loadable b.image shellCommand)
    {command : Option Command} {o : Outcome} (hk : k.execute b command = some (k', o)) :
    Transition b k (.execute command) k' := by
  cases command with
  | none =>
    obtain ⟨rfl, -⟩ := Prod.mk.inj (Option.some.inj hk)
    exact .quiet (by rintro ⟨⟩) (.refl k)
  | some command =>
    cases hexit : Kernel.isExit command with
    | true =>
      obtain ⟨k₁, o₁, hhalt, htrans, -⟩ := h.halt_cases hl (.exit hexit) 0
      rw [h.execute_exit hl hexit, hhalt] at hk
      obtain ⟨rfl, -⟩ := Prod.mk.inj (Option.some.inj hk)
      exact htrans
    | false =>
      rw [Kernel.execute_launch hexit] at hk
      rcases Kernel.launch_cases hk with ⟨v, s, -, rfl⟩ | ⟨p, mem, entry, -, hp, -, rfl, -⟩
      · refine .quiet (fun hleaves ↦ ?_) (.io _ _ _)
        cases hleaves with
        | exit hyes =>
          rw [hexit] at hyes
          cases hyes
      · exact .launch hexit hp

theorem switchTerminal_start (h : Forest k held) (hl : Loadable b.image shellCommand)
    {term : Fin maxTerminals} (hne : term ≠ k.termCur) (hnew : (k.terminal term).init = false)
    (hroom : k.canExecute = true) : ∃ p mem entry,
      ((k.leftFor term).begun term).getNewPid =
        some (p, ((k.leftFor term).begun term).processesFlags ||| 1#8 <<< p) ∧
      k.switchTerminal b term = some (((k.leftFor term).begun term).installed b .terminalStart p
        (commandArgs shellCommand.text) mem, .started entry) := by
  have hs : Stacked ((k.leftFor term).begun term) held :=
    ((h.toStacked.congr (.terminalSave k.termCur)).setCur term).begun term
  have hcan : ((k.leftFor term).begun term).canExecute = true := by
    rw [h.toStacked.canExecute_eq hs, hroom]
  obtain ⟨p, hp⟩ := hs.exists_newPid hcan
  obtain ⟨mem, entry, hlaunch⟩ := Kernel.launch_loadable .terminalStart hl hcan hp
  refine ⟨p, mem, entry, hp, ?_⟩
  rw [Kernel.switchTerminal_eq hne (by simp [hroom]), if_pos hnew, Kernel.terminalStart_eq, hlaunch]
  rfl

theorem switch_transition (h : Forest k held) (hl : Loadable b.image shellCommand)
    {term : Fin maxTerminals} {o : Outcome} (hk : k.switchTerminal b term = some (k', o)) :
    Transition b k (.console (.switch term)) k' := by
  by_cases hne : term = k.termCur
  · rw [Kernel.switchTerminal, if_pos hne] at hk
    obtain ⟨rfl, -⟩ := Prod.mk.inj (Option.some.inj hk)
    exact .quiet (by rintro ⟨⟩) (.refl k)
  · by_cases hfull : (k.terminal term).init = false ∧ k.canExecute = false
    · rw [Kernel.switchTerminal, if_neg hne, if_pos hfull] at hk
      obtain ⟨rfl, -⟩ := Prod.mk.inj (Option.some.inj hk)
      exact .quiet (by rintro ⟨⟩) (.io _ _ _)
    · cases hinit : (k.terminal term).init with
      | false =>
        have hroom : k.canExecute = true := by simpa [hinit] using hfull
        obtain ⟨p, mem, entry, hp, hstart⟩ := h.switchTerminal_start hl hne hinit hroom
        obtain ⟨rfl, -⟩ := Prod.mk.inj (Option.some.inj (hstart.symm.trans hk))
        exact .start hne hinit hp
      | true =>
        rw [Kernel.switchTerminal_load hne hinit] at hk
        obtain ⟨rfl, -⟩ := Prod.mk.inj (Option.some.inj hk)
        exact .load hne hinit

theorem vidmap_transition {ptr : UInt32} {r : ℤ} (hk : k.vidmap b ptr = some (k', r)) :
    Transition b k (.vidmap ptr) k' := by
  rcases Kernel.vidmap_cases hk with ⟨rfl, -⟩ | ⟨mem, -, -, rfl⟩
  · exact .quiet (by rintro ⟨⟩) (.refl k')
  · exact .vidmap (Local.io (k := k.videoMapped b) _ _ _)

/-- Between two forests the kernel does one of the things listed. -/
theorem transition (h : Forest k held) (hl : Loadable b.image shellCommand)
    (hk : k.step b a = some k') : Transition b k a k' := by
  cases a with
  | console e =>
    cases e with
    | key key =>
      obtain rfl := Option.some.inj hk
      exact .quiet (by rintro ⟨⟩) (.pressKey key)
    | output c =>
      obtain rfl := Option.some.inj hk
      exact .quiet (by rintro ⟨⟩) (.io _ _ _)
    | read nbytes =>
      obtain ⟨⟨k₁, bytes⟩, hr, rfl⟩ := Option.map_eq_some_iff.mp hk
      exact .quiet (by rintro ⟨⟩) (.terminalRead hr)
    | switch term =>
      obtain ⟨⟨k₁, o⟩, hr, rfl⟩ := Option.map_eq_some_iff.mp hk
      exact h.switch_transition hl hr
  | execute command =>
    obtain ⟨⟨k₁, o⟩, hr, rfl⟩ := Option.map_eq_some_iff.mp hk
    exact h.execute_transition hl hr
  | halt status =>
    obtain ⟨⟨k₁, o⟩, hr, rfl⟩ := Option.map_eq_some_iff.mp hk
    obtain ⟨k₂, o₂, hhalt, htrans, -⟩ := h.halt_cases hl (.halt status) status
    rw [hhalt] at hr
    obtain ⟨rfl, -⟩ := Prod.mk.inj (Option.some.inj hr)
    exact htrans
  | vidmap ptr =>
    obtain ⟨⟨k₁, r⟩, hr, rfl⟩ := Option.map_eq_some_iff.mp hk
    exact vidmap_transition hr
  | fdCall call =>
    obtain ⟨⟨k₁, r⟩, hr, rfl⟩ := Option.map_eq_some_iff.mp hk
    exact .quiet (by rintro ⟨⟩) (.fdCall ⟨rfl, call, rfl⟩ hr)

end Forest

end ApollOS
