import ApollOS.Process.Boot

namespace ApollOS

open Function Runs
open scoped BigOperators

variable {b : Build} {m : Machine} {k k' k₀ : Kernel} {held : Fin maxTerminals → List ℕ}
  {a : Action} {es : List Action} {p q : ℕ} {t : Fin maxTerminals}

structure SameStack (k k' : Kernel) (t : Fin maxTerminals) : Prop where
  init : (k'.terminal t).init = (k.terminal t).init
  numProcesses : (k'.terminal t).numProcesses = (k.terminal t).numProcesses
  termPid : (k'.terminal t).termPid = (k.terminal t).termPid

theorem SameProcesses.sameStack (h : SameProcesses k k') : SameStack k k' t :=
  ⟨h.init t, h.numProcesses t, h.termPid t⟩

theorem SameStack.of_eq (h : k'.terminal t = k.terminal t) : SameStack k k' t :=
  ⟨by rw [h], by rw [h], by rw [h]⟩

theorem SameStack.trans {k'' : Kernel} (h : SameStack k k' t) (h' : SameStack k' k'' t) :
    SameStack k k'' t :=
  ⟨h'.init.trans h.init, h'.numProcesses.trans h.numProcesses, h'.termPid.trans h.termPid⟩

namespace Kernel

theorem installed_terminal_of_ne {site : CallSite} {args : List UInt8} {mem : Memory}
    (ht : t ≠ k.termCur) : (k.installed b site p args mem).terminal t = k.terminal t :=
  update_of_ne ht _ _

theorem installed_termCur {site : CallSite} {args : List UInt8} {mem : Memory} :
    (k.installed b site p args mem).termCur = k.termCur := rfl

theorem installed_init {site : CallSite} {args : List UInt8} {mem : Memory} :
    ((k.installed b site p args mem).terminal t).init = (k.terminal t).init := by
  by_cases ht : t = k.termCur
  · subst ht
    simp [installed, current]
  · rw [installed_terminal_of_ne ht]

theorem retired_init : (k.retired.terminal t).init = (k.terminal t).init := by
  by_cases ht : t = k.termCur
  · subst ht
    simp [retired, current]
  · rw [retired_terminal_of_ne k ht]

theorem resumed_init : ((k.resumed p).terminal t).init = (k.terminal t).init := by
  by_cases ht : t = k.termCur
  · subst ht
    rw [resumed_terminal_current]
    rfl
  · rw [resumed_terminal_of_ne k p ht]

theorem leftFor_sameStack (k : Kernel) (term : Fin maxTerminals) :
    SameStack k (k.leftFor term) t := by
  have hs : SameProcesses k (k.terminalSave k.termCur) := .terminalSave k.termCur
  exact ⟨hs.init t, hs.numProcesses t, hs.termPid t⟩

theorem terminalLoad_terminal {term : Fin maxTerminals} :
    (k.terminalLoad term).terminal = k.terminal := rfl

end Kernel

theorem runningPid_installed {site : CallSite} {args : List UInt8} {mem : Memory} :
    (k.installed b site p args mem).runningPid = p := by
  simp [Kernel.runningPid, Kernel.current, Kernel.installed]

theorem runningPid_terminalLoad {term : Fin maxTerminals} :
    ((k.leftFor term).terminalLoad term).runningPid = (k.terminal term).termPid :=
  (Kernel.leftFor_sameStack k term).termPid

theorem Stacked.forest_installed {site : CallSite} {args : List UInt8} {mem : Memory}
    (h : Stacked k held) (hnew : k.getNewPid = some (p, k.processesFlags ||| 1#8 <<< p))
    (hcur : k.current.init = true)
    (hother : ∀ t ≠ k.termCur, (k.terminal t).init = true ↔ held t ≠ []) :
    Forest (k.installed b site p args mem) (update held k.termCur (p :: held k.termCur)) where
  __ := h.installed hnew
  started t := by
    rw [Kernel.installed_init]
    by_cases ht : t = k.termCur
    · subst ht
      simp only [update_self, ne_eq, reduceCtorEq, not_false_eq_true, iff_true]
      exact hcur
    · rw [update_of_ne ht]
      exact hother t ht
  current := by simp [Kernel.installed]

theorem Forest.current_init (h : Forest k held) : k.current.init = true :=
  (h.started _).mpr h.current

/-- One step keeps the forest, and touches the processes of the terminal that is
current after it only. -/
theorem Forest.step (h : Forest k held) (hl : Loadable b.image shellCommand)
    (hk : k.step b a = some k') :
    ∃ held', Forest k' held' ∧ ∀ t ≠ k'.termCur, held' t = held t ∧ SameStack k k' t := by
  cases h.transition hl hk with
  | quiet _ hs => exact ⟨held, h.congr hs.toSameProcesses, fun t _ ↦ ⟨rfl, hs.sameStack⟩⟩
  | vidmap hs =>
    have hv : Forest (k.videoMapped b) held :=
      ⟨⟨h.part, h.chain, h.count, h.pid, h.bound⟩, h.started, h.current⟩
    exact ⟨held, hv.congr hs.toSameProcesses,
      fun t _ ↦ ⟨rfl, hs.init t, hs.numProcesses t, hs.termPid t⟩⟩
  | launch _ hnew =>
    refine ⟨_, h.toStacked.forest_installed hnew h.current_init fun t _ ↦ h.started t,
      fun t ht ↦ ⟨update_of_ne ht _ _, ?_⟩⟩
    exact .of_eq (Kernel.installed_terminal_of_ne ht)
  | respawn _ hone hnew =>
    obtain ⟨q, hq⟩ : ∃ q, held k.termCur = [q] := by
      rw [← List.length_eq_one_iff]
      have hcount := h.numProcesses_eq
      omega
    refine ⟨_, (h.toStacked.retired_last hq).forest_installed hnew ?_ fun t ht ↦ ?_,
      fun t ht ↦ ⟨?_, ?_⟩⟩
    · exact Kernel.retired_init.trans h.current_init
    · have hne : t ≠ k.termCur := ht
      rw [Kernel.retired_init, update_of_ne hne]
      exact h.started t
    · exact (update_of_ne ht _ _).trans (update_of_ne (show t ≠ k.termCur from ht) _ _)
    · refine .of_eq ((Kernel.installed_terminal_of_ne (k := k.retired) ht).trans ?_)
      exact Kernel.retired_terminal_of_ne k ht
  | resume _ hne =>
    obtain ⟨q, l, hq, hl⟩ := h.exists_beneath hne
    refine ⟨_, ⟨h.toStacked.resumed hq hl, fun t ↦ ?_, ?_⟩, fun t ht ↦ ⟨update_of_ne ht _ _, ?_⟩⟩
    · rw [Kernel.resumed_init, Kernel.retired_init, h.started]
      by_cases ht : t = k.termCur
      · subst ht
        simpa [hl] using h.current
      · rw [update_of_ne ht]
    · rw [show (k.retired.resumed k.runningPid).termCur = k.termCur from rfl, update_self]
      exact hl
    · refine .of_eq ((Kernel.resumed_terminal_of_ne k.retired _ ht).trans ?_)
      exact Kernel.retired_terminal_of_ne k ht
  | @load term hterm hinit =>
    have hs := (h.toStacked.congr (.terminalSave k.termCur)).setCur term
    refine ⟨held, ⟨⟨hs.part, hs.chain, hs.count, hs.pid, hs.bound⟩, fun t ↦ ?_, ?_⟩,
      fun t _ ↦ ⟨rfl, ?_⟩⟩
    · rw [Kernel.terminalLoad_terminal, (Kernel.leftFor_sameStack k term).init]
      exact h.started t
    · exact (h.started term).mp hinit
    · exact (Kernel.leftFor_sameStack k term).trans (.of_eq (by rw [Kernel.terminalLoad_terminal]))
  | @start term p mem hterm hinit hnew =>
    have hs := ((h.toStacked.congr (.terminalSave k.termCur)).setCur term).begun term
    have hbegun (t : Fin maxTerminals) (ht : t ≠ term) :
        ((k.leftFor term).begun term).terminal t = (k.leftFor term).terminal t :=
      Kernel.begun_terminal_of_ne ht
    refine ⟨_, hs.forest_installed hnew Kernel.begun_init fun t ht ↦ ?_,
      fun t ht ↦ ⟨update_of_ne ht _ _, ?_⟩⟩
    · change (((k.leftFor term).begun term).terminal t).init = true ↔ _
      rw [hbegun t ht, (Kernel.leftFor_sameStack k term).init]
      exact h.started t
    · have hleft : SameStack k (k.leftFor term) t := Kernel.leftFor_sameStack k term
      rw [Kernel.installed_termCur, Kernel.begun_termCur] at ht
      have hinst : (((k.leftFor term).begun term).installed b .terminalStart p
          (commandArgs shellCommand.text) mem).terminal t =
          ((k.leftFor term).begun term).terminal t :=
        Kernel.installed_terminal_of_ne (by rwa [Kernel.begun_termCur])
      exact hleft.trans (.of_eq (hinst.trans (hbegun t ht)))

def Ends (p : ℕ) (k : Kernel) (a : Action) : Prop := k.runningPid = p ∧ Leaves a

theorem Kernel.fresh_ne (hnew : k.getNewPid = some (q, k.processesFlags ||| 1#8 <<< q))
    (hp : k.live p) : p ≠ q := by
  intro he
  exact (getNewPid_eq_some hnew).2.1 (he ▸ hp)

theorem Kernel.live_installed (hnew : k.getNewPid = some (q, k.processesFlags ||| 1#8 <<< q)) :
    (k.installed b site q args mem).live p ↔ k.live p ∨ p = q :=
  getLsbD_set (getNewPid_eq_some hnew).1

namespace Forest

theorem step_live (h : Forest k held) (hl : Loadable b.image shellCommand)
    (hk : k.step b a = some k') (hp : k.live p) (hstay : ¬ Ends p k a) : k'.live p := by
  cases h.transition hl hk with
  | quiet _ hs => exact hs.live_iff.mpr hp
  | vidmap hs => exact hs.live_iff.mpr hp
  | launch _ hnew => exact (Kernel.live_installed hnew).mpr (.inl hp)
  | respawn hleaves _ hnew =>
    have hne : p ≠ k.runningPid := fun he ↦ hstay ⟨he.symm, hleaves⟩
    exact (Kernel.live_installed hnew).mpr (.inl ((h.live_retired h.current).mpr ⟨hp, hne⟩))
  | resume hleaves =>
    have hne : p ≠ k.runningPid := fun he ↦ hstay ⟨he.symm, hleaves⟩
    exact (h.live_retired h.current).mpr ⟨hp, hne⟩
  | load => exact hp
  | start _ _ hnew =>
    refine (Kernel.live_installed hnew).mpr (.inl ?_)
    rw [Kernel.live, Kernel.begun_flags]
    exact hp

theorem step_pcb (h : Forest k held) (hl : Loadable b.image shellCommand)
    (hk : k.step b a = some k') (hp : k.live p) (hstay : ¬ Ends p k a) :
    ∃ files, k'.pcb p = { k.pcb p with files := files } := by
  have hfresh {k₁ : Kernel} {site : CallSite} {q : ℕ} {args : List UInt8} {mem : Memory}
      (hpcb : k₁.pcb = k.pcb) (hne : p ≠ q) :
      (k₁.installed b site q args mem).pcb p = k.pcb p :=
    (update_of_ne hne _ _).trans (congrFun hpcb p)
  cases h.transition hl hk with
  | quiet _ hs =>
    by_cases hcall : ∃ call, a = .fdCall call
    · obtain ⟨call, rfl⟩ := hcall
      obtain ⟨⟨k₁, r⟩, hr, rfl⟩ := Option.map_eq_some_iff.mp hk
      exact (FdEffect.fdCall hr).pcb p
    · exact ⟨(k.pcb p).files, hs.pcb p fun hcaller ↦ hcall hcaller.2⟩
  | vidmap hs => exact ⟨(k.pcb p).files, hs.pcb p (Set.notMem_empty p)⟩
  | launch _ hnew => exact ⟨(k.pcb p).files, hfresh rfl (Kernel.fresh_ne hnew hp)⟩
  | respawn hleaves _ hnew =>
    have hne : p ≠ k.runningPid := fun he ↦ hstay ⟨he.symm, hleaves⟩
    have hlive := (h.live_retired h.current).mpr ⟨hp, hne⟩
    exact ⟨(k.pcb p).files, hfresh rfl (Kernel.fresh_ne hnew hlive)⟩
  | resume => exact ⟨(k.pcb p).files, rfl⟩
  | load => exact ⟨(k.pcb p).files, rfl⟩
  | start _ _ hnew =>
    refine ⟨(k.pcb p).files, hfresh Kernel.begun_pcb (Kernel.fresh_ne hnew ?_)⟩
    rw [Kernel.live, Kernel.begun_flags]
    exact hp

theorem step_link (h : Forest k held) (hl : Loadable b.image shellCommand)
    (hk : k.step b a = some k') (hp : k.live p) (hstay : ¬ Ends p k a) :
    k'.parentOf p = k.parentOf p ∧ (k'.pcb p).parentEsp = (k.pcb p).parentEsp := by
  obtain ⟨files, hpcb⟩ := h.step_pcb hl hk hp hstay
  exact ⟨by simp only [Kernel.parentOf, hpcb], by simp only [hpcb]⟩

end Forest

theorem Forest.resumed_runningPid (h : Forest k held) :
    (k.retired.resumed k.runningPid).runningPid = k.parentOf k.runningPid := by
  have hlt := h.toStacked.parent_lt (h.running_mem h.current)
  have hmod := Nat.mod_eq_of_lt (hlt.trans (show maxProcesses < 256 by decide))
  have hterm := Kernel.resumed_terminal_current k.retired k.runningPid
  exact (congrArg Terminal.termPid hterm).trans hmod

theorem Forest.resumed_runningPid_ne (h : Forest k held) (hne : k.current.numProcesses ≠ 1) :
    (k.retired.resumed k.runningPid).runningPid ≠ k.runningPid := by
  obtain ⟨q, l, hq, hl⟩ := h.exists_beneath hne
  have hs := h.toStacked.resumed hq hl
  have hmem : (k.retired.resumed k.runningPid).runningPid ∈ update held k.termCur l k.termCur :=
    hs.running_mem (by rwa [show (k.retired.resumed k.runningPid).termCur = k.termCur from rfl,
      update_self])
  rw [update_self] at hmem
  have hnd := h.part.nodup k.termCur
  rw [hq] at hnd
  rw [h.toStacked.running_top hq]
  rw [h.toStacked.running_top hq] at hmem
  exact fun heq ↦ (List.nodup_cons.mp hnd).1 (heq ▸ hmem)

theorem boots_termCur (h : Boots b m k) : k.termCur = 0 := by
  obtain ⟨-, mem, rfl⟩ := boots_cases h
  rw [Kernel.installed_termCur, Machine.ready_termCur]

theorem boots_forest (h : Boots b m k) : Forest k (update (fun _ ↦ []) 0 [0]) := by
  obtain ⟨-, mem, rfl⟩ := boots_cases h
  have hf : Forest ((m.ready b).installed b .terminalStart 0 (commandArgs shellCommand.text) mem)
      (update (fun _ ↦ []) (m.ready b).termCur [0]) := by
    refine Machine.ready_stacked.forest_installed Machine.ready_getNewPid ?_ fun t ht ↦ ?_
    · exact (Machine.ready_init _).mpr Machine.ready_termCur
    · rw [Machine.ready_termCur] at ht
      rw [Machine.ready_init]
      simpa using ht
  rwa [Machine.ready_termCur] at hf

theorem boots_runningPid (hb : Boots b m k) : k.runningPid = 0 := by
  have hmem := (boots_forest hb).running_mem (boots_forest hb).current
  rw [boots_termCur hb] at hmem
  simpa using hmem

theorem boots_live_iff (hb : Boots b m k) : k.live p ↔ p = 0 := by
  rw [(boots_forest hb).part.cover]
  constructor
  · rintro ⟨t, ht⟩
    by_cases hzero : t = 0
    · subst hzero
      simpa using ht
    · simp [hzero] at ht
  · rintro rfl
    exact ⟨0, by simp⟩

theorem boots_parentOf (hb : Boots b m k) : k.parentOf 0 = 0 := by
  have hf := boots_forest hb
  have hchain := hf.chain k.termCur hf.current
  have hpid : (k.terminal k.termCur).termPid = 0 := boots_runningPid hb
  rw [hpid, boots_termCur hb, update_self] at hchain
  exact hchain.next_of_singleton

theorem reachable_forest (hb : Boots b m k₀) (hr : run (Kernel.step b) k₀ es = some k) :
    ∃ held, Forest k held := by
  refine invariant (I := fun k ↦ ∃ held, Forest k held) ?_ ⟨_, boots_forest hb⟩ hr
  rintro k a k' ⟨held, hf⟩ hk
  obtain ⟨held', hf', -⟩ := hf.step (boots_cases hb).1 hk
  exact ⟨held', hf'⟩

/-- In every reachable state the live processes are divided among the terminals,
each of which has its own as a chain of parent links; the counters, the flags
and both tests for room agree; and a step changes the chain of no terminal but
the one that is current after it. -/
theorem processes_partitioned (hb : Boots b m k₀) (hr : run (Kernel.step b) k₀ es = some k) :
    ∃ held : Fin maxTerminals → List ℕ,
      (∀ p, k.live p ↔ ∃ t, p ∈ held t) ∧
      (∀ t u, t ≠ u → (held t).Disjoint (held u)) ∧
      (∀ t, (k.terminal t).init = true →
        Chain k.parentOf (k.terminal t).termPid (held t) ∧ (held t).Nodup ∧
          (k.terminal t).numProcesses = (held t).length ∧ 1 ≤ (k.terminal t).numProcesses) ∧
      (∀ t, (k.terminal t).init = false → held t = [] ∧ (k.terminal t).numProcesses = 0) ∧
      (∑ t, (k.terminal t).numProcesses = ((Finset.range 8).filter k.live).card) ∧
      (∑ t, (k.terminal t).numProcesses ≤ maxProcesses) ∧
      (k.canExecute = true ↔ k.getNewPid.isSome) ∧
      ∀ a k', k.step b a = some k' → ∀ t ≠ k'.termCur, SameStack k k' t ∧
        ((k'.terminal t).init = true → Chain k'.parentOf (k'.terminal t).termPid (held t)) := by
  obtain ⟨held, hf⟩ := reachable_forest hb hr
  refine ⟨held, hf.part.cover, hf.part.disjoint, fun t ht ↦ ?_, fun t ht ↦ ?_,
    hf.toStacked.sum_eq_card, ?_, hf.toStacked.canExecute_iff, fun a k' hk t ht ↦ ?_⟩
  · have hne := (hf.started t).mp ht
    refine ⟨hf.chain t hne, hf.part.nodup t, hf.count t, ?_⟩
    have hpos := (hf.chain t hne).length_pos
    rw [hf.count t]
    omega
  · have hnil : held t = [] := by
      by_contra hne
      simp [(hf.started t).mpr hne] at ht
    exact ⟨hnil, by simp [hf.count t, hnil]⟩
  · rw [hf.toStacked.sum_numProcesses, Nat.cast_le]
    exact (hf.part.sum_length_le _ hf.toStacked.mem_pool).trans_eq (Finset.card_range _)
  · obtain ⟨held', hf', hsame⟩ := hf.step (boots_cases hb).1 hk
    obtain ⟨hheld, hstack⟩ := hsame t ht
    refine ⟨hstack, fun hinit ↦ ?_⟩
    rw [← hheld]
    exact hf'.chain t ((hf'.started t).mp hinit)

theorem boots_canExecute (hb : Boots b m k) : k.canExecute = true := by
  have hf := boots_forest hb
  rw [Kernel.canExecute, decide_eq_true_iff, hf.toStacked.sum_numProcesses, Fin.sum_univ_three]
  simp [maxProcesses]

theorem boots_child_canExecute {c : Command} {entry : UInt32} (hb : Boots b m k₀)
    (hexit : Kernel.isExit c = false) (hx : k₀.execute b (some c) = some (k, .started entry)) :
    k.canExecute = true := by
  have hf := boots_forest hb
  rw [Kernel.execute_launch hexit] at hx
  rcases Kernel.launch_cases hx with ⟨v, s, ho, -⟩ | ⟨p, mem, e, -, hnew, -, rfl, -⟩
  · cases ho
  have hs : Stacked (k₀.installed b .syscall p (commandArgs c.text) mem) _ :=
    hf.toStacked.installed hnew
  rw [Kernel.canExecute, decide_eq_true_iff, hs.sum_numProcesses, boots_termCur hb,
    Fin.sum_univ_three]
  simp [maxProcesses]

theorem boots_child_ne {c : Command} {entry : UInt32} (hb : Boots b m k₀)
    (hexit : Kernel.isExit c = false) (hx : k₀.execute b (some c) = some (k, .started entry)) :
    k.runningPid ≠ 0 := by
  rw [Kernel.execute_launch hexit] at hx
  rcases Kernel.launch_cases hx with ⟨v, s, ho, -⟩ | ⟨p, mem, e, -, hnew, -, rfl, -⟩
  · cases ho
  · rw [runningPid_installed]
    exact (Kernel.fresh_ne hnew ((boots_live_iff hb).mpr rfl)).symm

theorem sample_started {c : Command} (hc : Loadable sampleImage c)
    (hexit : Kernel.isExit c = false) :
    ∃ k₀ k₁ entry held, Boots sampleBuild sampleMachine k₀ ∧
      k₀.execute sampleBuild (some c) = some (k₁, .started entry) ∧ Forest k₁ held ∧
      k₁.current.numProcesses = 2 := by
  obtain ⟨k₀, hb⟩ := sample_boots
  have hf := boots_forest hb
  have hcan := boots_canExecute hb
  obtain ⟨p, hnew⟩ := hf.exists_newPid hcan
  obtain ⟨mem, entry, hlaunch⟩ := Kernel.launch_loadable (b := sampleBuild) .syscall hc hcan hnew
  have hexec : k₀.execute sampleBuild (some c) =
      some (k₀.installed sampleBuild .syscall p (commandArgs c.text) mem, .started entry) := by
    rw [Kernel.execute_launch hexit, hlaunch]
  obtain ⟨held, hf₁, -⟩ := hf.step sampleImage_loadable (Kernel.step_execute hexec)
  have hcount : k₀.current.numProcesses = 1 := by
    rw [hf.numProcesses_eq, boots_termCur hb, update_self]
    rfl
  refine ⟨k₀, _, entry, held, hb, hexec, hf₁, ?_⟩
  simp [Kernel.current, Kernel.installed] at hcount ⊢
  omega

theorem sample_child : ∃ k₀ k₁ entry held, Boots sampleBuild sampleMachine k₀ ∧
    k₀.execute sampleBuild (some shellCommand) = some (k₁, .started entry) ∧ Forest k₁ held ∧
    k₁.current.numProcesses = 2 := sample_started sampleImage_loadable (by decide)

/-- A terminal with two processes is left for one where a shell has to be started, and found again;
then the inner process halts. -/
theorem Forest.away_and_back (hf : Forest k held) (hl : Loadable b.image shellCommand)
    (hcur : k.termCur = 0) (htwo : k.current.numProcesses = 2)
    (hnew : (k.terminal 1).init = false) (hroom : k.canExecute = true) : ∃ k₁ k₂ k₃,
      k.step b (.console (.switch 1)) = some k₁ ∧ k₁.step b (.console (.switch 0)) = some k₂ ∧
      k₂.step b (.halt 0) = some k₃ ∧ (k₁.terminal 1).numProcesses = 1 ∧
      (k₂.terminal 0).numProcesses = 2 ∧ (k₂.terminal 1).numProcesses = 1 ∧
      (k₃.terminal 0).numProcesses = 1 ∧ (k₃.terminal 1).numProcesses = 1 := by
  have hne : (1 : Fin maxTerminals) ≠ k.termCur := by
    rw [hcur]
    decide
  obtain ⟨p, mem, entry, -, hstart⟩ := hf.switchTerminal_start hl hne hnew hroom
  have hswitch : k.step b (.console (.switch 1)) = some _ := congrArg (Option.map Prod.fst) hstart
  have hone : ((((k.leftFor 1).begun 1).installed b .terminalStart p (commandArgs shellCommand.text)
      mem).terminal 1).numProcesses = 1 := by
    have hempty : held 1 = [] := by
      have hiff := hf.started 1
      simpa [hnew] using hiff
    have hstack : Stacked ((k.leftFor 1).begun 1) held :=
      ((hf.toStacked.congr (.terminalSave k.termCur)).setCur 1).begun 1
    have hcount := hstack.count 1
    have hleft : (k.leftFor 1).termCur = 1 := rfl
    rw [hempty] at hcount
    simp only [Kernel.installed, Kernel.current, Kernel.begun_termCur, hleft, update_self, hcount]
    rfl
  have hcur₁ : (((k.leftFor 1).begun 1).installed b .terminalStart p (commandArgs shellCommand.text)
      mem).termCur = 1 := rfl
  generalize ((k.leftFor 1).begun 1).installed b .terminalStart p (commandArgs shellCommand.text)
    mem = k₁ at hswitch hone hcur₁
  obtain ⟨held₁, hf₁, hsame₁⟩ := hf.step hl hswitch
  obtain ⟨-, hback⟩ := hsame₁ 0 (by rw [hcur₁]; decide)
  have hinit : (k₁.terminal 0).init = true :=
    hback.init.trans ((hf.started 0).mpr (hcur ▸ hf.current))
  have hne₁ : (0 : Fin maxTerminals) ≠ k₁.termCur := by
    rw [hcur₁]
    decide
  have hload : k₁.step b (.console (.switch 0)) = some ((k₁.leftFor 0).terminalLoad 0) :=
    congrArg (Option.map Prod.fst) (Kernel.switchTerminal_load hne₁ hinit)
  have htwo₂ : (((k₁.leftFor 0).terminalLoad 0).terminal 0).numProcesses = 2 := by
    have hzero : (k.terminal 0).numProcesses = 2 := by
      rw [← hcur]
      exact htwo
    exact (Kernel.leftFor_sameStack k₁ 0 (t := 0)).numProcesses.trans
      (hback.numProcesses.trans hzero)
  have hcur₂ : ((k₁.leftFor 0).terminalLoad 0).termCur = 0 := rfl
  generalize (k₁.leftFor 0).terminalLoad 0 = k₂ at hload htwo₂ hcur₂
  obtain ⟨held₂, hf₂, hsame₂⟩ := hf₁.step hl hload
  have hnested : k₂.current.numProcesses ≠ 1 := by
    rw [Kernel.current, hcur₂, htwo₂]
    decide
  have hhalt : k₂.step b (.halt 0) = some (k₂.retired.resumed k₂.runningPid) :=
    congrArg (Option.map Prod.fst) (hf₂.halt_nested hnested 0)
  obtain ⟨held₃, hf₃, hsame₃⟩ := hf₂.step hl hhalt
  have hcur₃ : (k₂.retired.resumed k₂.runningPid).termCur = 0 := hcur₂
  have hone₂ := ((hsame₂ 1 (by rw [hcur₂]; decide)).2.numProcesses).trans hone
  refine ⟨k₁, k₂, _, hswitch, hload, hhalt, hone, htwo₂, hone₂, ?_,
    ((hsame₃ 1 (by rw [hcur₃]; decide)).2.numProcesses).trans hone₂⟩
  have hterm := Kernel.resumed_terminal_current k₂.retired k₂.runningPid
  have hcount := Kernel.retired_numProcesses (k := k₂)
  have hretired : k₂.retired.termCur = 0 := hcur₂
  rw [hretired] at hterm
  rw [hterm, hcount, Kernel.current, hcur₂, htwo₂]
  rfl

/-- The first shell after boot has run another one, and the other terminals are as they were. -/
theorem sample_inner : ∃ k₀ k₁ entry held, Boots sampleBuild sampleMachine k₀ ∧
    k₀.execute sampleBuild (some shellCommand) = some (k₁, .started entry) ∧ Forest k₁ held ∧
    k₁.termCur = 0 ∧ k₁.current.numProcesses = 2 ∧ (k₁.terminal 1).init = false ∧
    k₁.canExecute = true := by
  obtain ⟨k₀, k₁, entry, held₁, hb, hexec, hf₁, htwo⟩ := sample_child
  have hcur : k₁.termCur = 0 := by
    have hlaunch := hexec
    rw [Kernel.execute_launch (by decide)] at hlaunch
    rcases Kernel.launch_cases hlaunch with ⟨v, s, ho, -⟩ | ⟨q, mem, e, -, -, -, rfl, -⟩
    · cases ho
    · rw [Kernel.installed_termCur, boots_termCur hb]
  refine ⟨k₀, k₁, entry, held₁, hb, hexec, hf₁, hcur, htwo, ?_,
    boots_child_canExecute hb (by decide) hexec⟩
  obtain ⟨held, hf, hsame⟩ := (boots_forest hb).step (boots_cases hb).1 (Kernel.step_execute hexec)
  obtain ⟨hheld, -⟩ := hsame 1 (by rw [hcur]; decide)
  have hiff := hf.started 1
  rw [hheld, update_of_ne (by decide)] at hiff
  simpa using hiff

/-- The first shell runs another one, the user changes to the second terminal and back, and the
inner shell halts. -/
theorem processes_partitioned_sample : ∃ (k₀ k₃ k₄ : Kernel)
    (held held' : Fin maxTerminals → List ℕ), Boots sampleBuild sampleMachine k₀ ∧
    run (Kernel.step sampleBuild) k₀ [.execute (some shellCommand), .console (.switch 1),
      .console (.switch 0)] = some k₃ ∧ k₃.step sampleBuild (.halt 0) = some k₄ ∧
    (∀ p, k₃.live p ↔ ∃ t, p ∈ held t) ∧ (held 0).Disjoint (held 1) ∧
    (held 0).length = 2 ∧ (held 1).length = 1 ∧ Chain k₃.parentOf (k₃.terminal 0).termPid (held 0) ∧
    (∀ p, k₄.live p ↔ ∃ t, p ∈ held' t) ∧ (held' 0).length = 1 ∧
    (held' 1).length = 1 := by
  obtain ⟨k₀, k₁, entry, held₁, hb, hexec, hf₁, hcur, htwo, hnew, hroom⟩ := sample_inner
  have hstep := Kernel.step_execute hexec
  obtain ⟨k₂, k₃, k₄, haway, hback, hhalt, -, hzero, hone, hzero', hone'⟩ :=
    hf₁.away_and_back (boots_cases hb).1 hcur htwo hnew hroom
  have hr : run (Kernel.step sampleBuild) k₀ [.execute (some shellCommand), .console (.switch 1),
      .console (.switch 0)] = some k₃ :=
    run_cons_eq_some.mpr ⟨k₁, hstep, run_cons_eq_some.mpr ⟨k₂, haway,
      run_cons_eq_some.mpr ⟨k₃, hback, rfl⟩⟩⟩
  have hr' : run (Kernel.step sampleBuild) k₀ ([.execute (some shellCommand), .console (.switch 1),
      .console (.switch 0)] ++ [.halt 0]) = some k₄ := by
    rw [run_append, hr]
    exact run_cons_eq_some.mpr ⟨k₄, hhalt, rfl⟩
  have hstarted {k : Kernel} {held : Fin maxTerminals → List ℕ} {t : Fin maxTerminals} {n : ℕ}
      (hoff : (k.terminal t).init = false → held t = [] ∧ (k.terminal t).numProcesses = 0)
      (hn : (k.terminal t).numProcesses = (n : ℤ) + 1) : (k.terminal t).init = true := by
    by_contra hinit
    have hnone := (hoff (by simpa using hinit)).2
    omega
  obtain ⟨held, hcover, hdisj, hon, hoff, -⟩ := processes_partitioned hb hr
  obtain ⟨held', hcover', -, hon', hoff', -⟩ := processes_partitioned hb hr'
  obtain ⟨hchain, -, hlen, -⟩ := hon 0 (hstarted (n := 1) (hoff 0) hzero)
  obtain ⟨-, -, hlen₁, -⟩ := hon 1 (hstarted (n := 0) (hoff 1) hone)
  obtain ⟨-, -, hlen', -⟩ := hon' 0 (hstarted (n := 0) (hoff' 0) hzero')
  obtain ⟨-, -, hlen₁', -⟩ := hon' 1 (hstarted (n := 0) (hoff' 1) hone')
  refine ⟨k₀, k₃, k₄, held, held', hb, hr, hhalt, hcover, hdisj 0 1 (by decide), ?_, ?_, hchain,
    hcover', ?_, ?_⟩ <;> omega

end ApollOS
