import ApollOS.Foundation.ParentChain
import ApollOS.Foundation.StackPartition
import ApollOS.Process.Launch

namespace ApollOS

open Function
open scoped BigOperators

namespace Kernel

variable (k : Kernel)

def parentOf (p : ℕ) : ℕ := (k.pcb p).parentPid

/-- `halt` up to the point where it looks for what to run next. -/
def retired : Kernel :=
  { k with
    devices := closeFiles (k.pcb k.runningPid).files k.devices
    terminal := update k.terminal k.termCur
      { k.current with numProcesses := k.current.numProcesses - 1 }
    processesFlags := k.processesFlags &&& ~~~(1#8 <<< (k.pcb k.runningPid).pid) }

/-- The end of `halt`, back in the parent of process `p`. -/
def resumed (p : ℕ) : Kernel :=
  { k with
    terminal := update k.terminal k.termCur
      { k.current with termPid := k.parentOf p % 256 }
    paging := k.paging.remap virtualStart (userBlock (k.parentOf p))
    esp0 := (k.pcb p).parentEsp }

theorem parentOf_retired : k.retired.parentOf = k.parentOf := rfl

theorem retired_terminal_of_ne {t : Fin maxTerminals} (ht : t ≠ k.termCur) :
    k.retired.terminal t = k.terminal t := update_of_ne ht _ _

theorem resumed_terminal_of_ne {t : Fin maxTerminals} (p : ℕ) (ht : t ≠ k.termCur) :
    (k.resumed p).terminal t = k.terminal t := update_of_ne ht _ _

theorem resumed_terminal_current (p : ℕ) :
    (k.resumed p).terminal k.termCur = { k.current with termPid := k.parentOf p % 256 } :=
  update_self _ _ _

/-- A terminal that is about to get its first shell. -/
def begun (term : Fin maxTerminals) : Kernel :=
  ((k.setTerminal term fun t ↦ { t with init := true }).showTerminal term).printBanner

theorem begun_eq (term : Fin maxTerminals) : ∃ console, k.begun term =
    { k with
      terminal := update k.terminal term { k.terminal term with init := true }
      keyBuffer := term
      console := console
      keyboard := { k.keyboard with keyBufferPos := (k.terminal term).keyBufferPos } } := by
  have hpos : ((k.setTerminal term fun t ↦ { t with init := true }).terminal term).keyBufferPos =
      (k.terminal term).keyBufferPos := by
    simp [setTerminal]
  rw [← hpos]
  exact ⟨_, rfl⟩

section Begun

variable {k} {term : Fin maxTerminals}

theorem begun_termCur : (k.begun term).termCur = k.termCur := by
  obtain ⟨console, h⟩ := k.begun_eq term
  rw [h]

theorem begun_flags : (k.begun term).processesFlags = k.processesFlags := by
  obtain ⟨console, h⟩ := k.begun_eq term
  rw [h]

theorem begun_pcb : (k.begun term).pcb = k.pcb := by
  obtain ⟨console, h⟩ := k.begun_eq term
  rw [h]

theorem begun_paging : (k.begun term).paging = k.paging := by
  obtain ⟨console, h⟩ := k.begun_eq term
  rw [h]

theorem begun_terminal_of_ne {t : Fin maxTerminals} (ht : t ≠ term) :
    (k.begun term).terminal t = k.terminal t := by
  obtain ⟨console, h⟩ := k.begun_eq term
  rw [h]
  exact update_of_ne ht _ _

theorem begun_init : ((k.begun term).terminal term).init = true := by
  obtain ⟨console, h⟩ := k.begun_eq term
  simp only [h, update_self]

end Begun

end Kernel

/-- Each terminal's processes, as the stack of those started from it: the live
pids are divided among the stacks, `num_processes` counts a stack and the parent
links run through it from `term_pid` on. -/
structure Stacked (k : Kernel) (held : Fin maxTerminals → List ℕ) : Prop where
  part : StackPartition k.live held
  chain : ∀ t, held t ≠ [] → Chain k.parentOf (k.terminal t).termPid (held t)
  count : ∀ t, (k.terminal t).numProcesses = (held t).length
  pid : ∀ p, k.live p → (k.pcb p).pid = p
  bound : ∀ p, k.live p → p < maxProcesses

/-- The processes between two steps: exactly the started terminals have some. -/
structure Forest (k : Kernel) (held : Fin maxTerminals → List ℕ) : Prop extends
    Stacked k held where
  started : ∀ t, (k.terminal t).init = true ↔ held t ≠ []
  current : held k.termCur ≠ []

namespace Stacked

variable {b : Build} {k k' : Kernel} {held : Fin maxTerminals → List ℕ} {site : CallSite}
  {args : List UInt8} {mem : Memory} {p : ℕ} {l : List ℕ} {t : Fin maxTerminals}

theorem congr (h : Stacked k held) (hs : SameProcesses k k') : Stacked k' held where
  part := h.part.congr_live fun _ ↦ hs.live_iff
  chain t ht := by
    rw [hs.termPid]
    exact (Chain.congr_iff hs.parentPid).mpr (h.chain t ht)
  count t := (hs.numProcesses t).trans (h.count t)
  pid p hp := (hs.pid p).trans (h.pid p (hs.live_iff.mp hp))
  bound p hp := h.bound p (hs.live_iff.mp hp)

theorem setCur (h : Stacked k held) (term : Fin maxTerminals) :
    Stacked { k with termCur := term } held :=
  ⟨h.part, h.chain, h.count, h.pid, h.bound⟩

theorem setInit (h : Stacked k held) (term : Fin maxTerminals) :
    Stacked (k.setTerminal term fun t ↦ { t with init := true }) held where
  part := h.part
  chain t ht := by
    have hpid : ((k.setTerminal term fun t ↦ { t with init := true }).terminal t).termPid =
        (k.terminal t).termPid := by
      by_cases hterm : t = term <;> simp [Kernel.setTerminal, hterm]
    rw [hpid]
    exact h.chain t ht
  count t := by
    rw [← h.count t]
    by_cases hterm : t = term <;> simp [Kernel.setTerminal, hterm]
  pid := h.pid
  bound := h.bound

theorem begun (h : Stacked k held) (term : Fin maxTerminals) : Stacked (k.begun term) held :=
  (h.setInit term).congr ((SameProcesses.showTerminal term).trans (.io _ _ _))

theorem running_mem (h : Stacked k held) (hc : held k.termCur ≠ []) :
    k.runningPid ∈ held k.termCur := (h.chain _ hc).start_mem

theorem running_live (h : Stacked k held) (hc : held k.termCur ≠ []) : k.live k.runningPid :=
  h.part.live_of_mem (h.running_mem hc)

theorem mem_pool (h : Stacked k held) : ∀ p, k.live p → p ∈ Finset.range maxProcesses :=
  fun p hp ↦ Finset.mem_range.mpr (h.bound p hp)

theorem sum_numProcesses (h : Stacked k held) :
    ∑ t, (k.terminal t).numProcesses = (∑ t, (held t).length : ℕ) := by
  simp only [h.count, Nat.cast_sum]

theorem sum_eq_card (h : Stacked k held) :
    ∑ t, (k.terminal t).numProcesses = ((Finset.range 8).filter k.live).card := by
  rw [h.sum_numProcesses, h.part.sum_length _ fun p hp ↦ ?_]
  exact Finset.mem_range.mpr ((h.bound p hp).trans (by decide))

/-- The two tests for room agree: `can_execute` by the counters and
`get_new_pid` by the flags. -/
theorem canExecute_iff (h : Stacked k held) : k.canExecute = true ↔ k.getNewPid.isSome := by
  have hfree := h.part.exists_free_iff _ h.mem_pool
  simp only [Finset.mem_range, Finset.card_range] at hfree
  rw [Kernel.getNewPid_isSome_iff, hfree, Kernel.canExecute, decide_eq_true_iff,
    h.sum_numProcesses, Nat.cast_lt]

theorem createPcb_isSome (h : Stacked k held) (hcan : k.canExecute = true) :
    k.createPcb.isSome := by
  rw [Kernel.createPcb, Option.isSome_map]
  exact h.canExecute_iff.mp hcan

theorem canExecute_iff_card (h : Stacked k held) :
    k.canExecute = true ↔ ((Finset.range 8).filter k.live).card < maxProcesses := by
  rw [Kernel.canExecute, decide_eq_true_iff, h.sum_eq_card, Nat.cast_lt]

theorem canExecute_eq (h : Stacked k held) (h' : Stacked k' held) :
    k'.canExecute = k.canExecute := by
  rw [Kernel.canExecute, Kernel.canExecute, h.sum_numProcesses, h'.sum_numProcesses]

theorem canExecute_congr {held' : Fin maxTerminals → List ℕ} (h : Stacked k held)
    (h' : Stacked k' held') (hlive : ∀ q, k'.live q ↔ k.live q) :
    k'.canExecute = k.canExecute := by
  rw [Bool.eq_iff_iff, h.canExecute_iff_card, h'.canExecute_iff_card]
  simp only [hlive]

theorem exists_newPid (h : Stacked k held) (hcan : k.canExecute = true) :
    ∃ p, k.getNewPid = some (p, k.processesFlags ||| 1#8 <<< p) := by
  obtain ⟨⟨p, f⟩, hp⟩ := Option.isSome_iff_exists.mp (h.canExecute_iff.mp hcan)
  obtain ⟨-, -, rfl⟩ := Kernel.getNewPid_eq_some hp
  exact ⟨p, hp⟩

theorem installed (h : Stacked k held)
    (hnew : k.getNewPid = some (p, k.processesFlags ||| 1#8 <<< p)) :
    Stacked (k.installed b site p args mem)
      (update held k.termCur (p :: held k.termCur)) := by
  obtain ⟨hp, hfree, -⟩ := Kernel.getNewPid_eq_some hnew
  have hlive (q : ℕ) : (k.installed b site p args mem).live q ↔ k.live q ∨ q = p :=
    Kernel.getLsbD_set hp
  have hparent (q : ℕ) (hq : q ≠ p) :
      (k.installed b site p args mem).parentOf q = k.parentOf q := by
    simp [Kernel.parentOf, Kernel.installed, hq]
  have hold (t : Fin maxTerminals) (ht : held t ≠ []) :
      Chain (k.installed b site p args mem).parentOf (k.terminal t).termPid (held t) := by
    refine (h.chain t ht).congr fun q hq ↦ hparent q ?_
    rintro rfl
    exact h.part.not_mem_of_fresh hfree hq
  refine ⟨(h.part.push hfree).congr_live hlive, fun t ht ↦ ?_, fun t ↦ ?_, fun q hq ↦ ?_,
    fun q hq ↦ ?_⟩
  · by_cases hcur : t = k.termCur
    · subst hcur
      have hnext : (k.installed b site p args mem).parentOf p =
          if k.current.numProcesses = 0 then p else k.current.termPid := by
        simp [Kernel.parentOf, Kernel.installed]
      have hcount : k.current.numProcesses = (held k.termCur).length := h.count _
      simp only [Kernel.installed, update_self]
      by_cases hnil : held k.termCur = []
      · rw [hnil]
        refine .root (hnext.trans ?_)
        simp [hcount, hnil]
      · have hpid :
            (k.installed b site p args mem).parentOf p = (k.terminal k.termCur).termPid := by
          rw [hnext, if_neg (by simpa [hcount] using hnil)]
          rfl
        refine .link ?_ ?_
        · intro heq
          have hmem := h.running_mem hnil
          rw [show k.runningPid = p from hpid.symm.trans heq] at hmem
          exact h.part.not_mem_of_fresh hfree hmem
        · have hchain := hold _ hnil
          rwa [← hpid] at hchain
    · simp only [Kernel.installed, update_of_ne hcur] at ht ⊢
      exact hold t ht
  · by_cases hcur : t = k.termCur
    · subst hcur
      have hcount := h.count k.termCur
      simp [Kernel.installed, Kernel.current, hcount]
    · simpa [Kernel.installed, hcur] using h.count t
  · by_cases hqp : q = p
    · subst hqp
      simp [Kernel.installed]
    · simpa [Kernel.installed, hqp] using h.pid q (((hlive q).mp hq).resolve_right hqp)
  · rcases (hlive q).mp hq with hq | rfl
    · exact h.bound q hq
    · exact hp

theorem running_top (h : Stacked k held) (hc : held k.termCur = p :: l) : k.runningPid = p := by
  have hchain := h.chain k.termCur (by simp [hc])
  obtain ⟨l', hl'⟩ := hchain.exists_tail
  exact (List.cons.inj (hl'.symm.trans hc)).1

theorem live_retired (h : Stacked k held) (hc : held k.termCur ≠ []) {q : ℕ} :
    k.retired.live q ↔ k.live q ∧ q ≠ k.runningPid := by
  have hrun := h.running_live hc
  have hbound := h.bound _ hrun
  have hiff := Kernel.getLsbD_clear (f := k.processesFlags) (q := q) hbound
  simpa only [Kernel.live, Kernel.retired, h.pid _ hrun] using hiff

theorem part_retired (h : Stacked k held) (hc : held k.termCur = p :: l) :
    StackPartition k.retired.live (update held k.termCur l) := by
  refine (h.part.pop hc).congr_live fun q ↦ ?_
  rw [h.live_retired (by simp [hc]), h.running_top hc]

theorem count_retired (h : Stacked k held) (hc : held k.termCur = p :: l) (t : Fin maxTerminals) :
    (k.retired.terminal t).numProcesses = (update held k.termCur l t).length := by
  by_cases ht : t = k.termCur
  · subst ht
    have hcount := h.count k.termCur
    rw [hc] at hcount
    simp [Kernel.retired, Kernel.current, hcount]
  · simpa [Kernel.retired, ht] using h.count t

theorem retired_last (h : Stacked k held) (hc : held k.termCur = [p]) :
    Stacked k.retired (update held k.termCur []) where
  part := h.part_retired hc
  chain t ht := by
    by_cases hcur : t = k.termCur
    · subst hcur
      simp at ht
    · simp only [update_of_ne hcur] at ht ⊢
      rw [Kernel.retired_terminal_of_ne k hcur, Kernel.parentOf_retired]
      exact h.chain t ht
  count := h.count_retired hc
  pid q hq := h.pid q ((h.live_retired (by simp [hc])).mp hq).1
  bound q hq := h.bound q ((h.live_retired (by simp [hc])).mp hq).1

theorem parent_lt (h : Stacked k held) (hp : p ∈ held t) : k.parentOf p < maxProcesses :=
  h.bound _ (h.part.live_of_mem ((h.chain t (List.ne_nil_of_mem hp)).next_mem hp))

/-- A process that waits for another one is not the one that runs. -/
theorem parent_waits (h : Stacked k held) (hc : held k.termCur ≠ []) (hp : k.live p)
    (hne : k.parentOf p ≠ p) : k.runningPid ≠ k.parentOf p := by
  obtain ⟨t, ht⟩ := (h.part.cover p).mp hp
  have hchain := h.chain t (List.ne_nil_of_mem ht)
  intro hrun
  have hmem := h.running_mem hc
  rw [hrun] at hmem
  obtain rfl := h.part.owner_unique (hchain.next_mem ht) hmem
  exact hchain.next_ne_head (h.part.nodup _) ht hne hrun.symm

theorem resumed (h : Stacked k held) (hc : held k.termCur = p :: l) (hl : l ≠ []) :
    Stacked (k.retired.resumed k.runningPid) (update held k.termCur l) where
  part := (h.part_retired hc).congr_live fun _ ↦ Iff.rfl
  chain t ht := by
    by_cases hcur : t = k.termCur
    · subst hcur
      have hrun := h.running_top hc
      have hchain := h.chain k.termCur (by simp [hc])
      have hpid : (k.terminal k.termCur).termPid = p := hrun
      rw [hc, hpid] at hchain
      have hparent : k.parentOf p < maxProcesses := h.parent_lt (t := k.termCur) (by simp [hc])
      have hmod : k.parentOf p % 256 = k.parentOf p :=
        Nat.mod_eq_of_lt (hparent.trans (by decide))
      have hterm :
          ((k.retired.resumed k.runningPid).terminal k.termCur).termPid = k.parentOf p := by
        rw [show k.termCur = k.retired.termCur from rfl, Kernel.resumed_terminal_current,
          Kernel.parentOf_retired, hrun, hmod]
      rw [hterm, update_self]
      exact (hchain.tail hl).2
    · rw [update_of_ne hcur] at ht ⊢
      rw [Kernel.resumed_terminal_of_ne k.retired _ hcur, Kernel.retired_terminal_of_ne k hcur]
      exact h.chain t ht
  count t := by
    have hcount := h.count_retired hc t
    by_cases hcur : t = k.termCur
    · subst hcur
      rw [show k.termCur = k.retired.termCur from rfl, Kernel.resumed_terminal_current]
      exact hcount
    · rwa [Kernel.resumed_terminal_of_ne k.retired _ hcur]
  pid q hq := h.pid q ((h.live_retired (by simp [hc])).mp hq).1
  bound q hq := h.bound q ((h.live_retired (by simp [hc])).mp hq).1

end Stacked

end ApollOS
