import ApollOS.Process.ExitStatus

namespace ApollOS

open Function Runs

variable {b : Build} {m : Machine} {s : StackUse} {k k' k₀ : Kernel}
  {held : Fin maxTerminals → List ℕ} {es : List Action} {statuses : List UInt8} {p : ℕ}
  {t : Fin maxTerminals} {status : UInt8}

structure Unwound (k : Kernel) (n : ℕ) (k' : Kernel) : Prop where
  termCur : k'.termCur = k.termCur
  runningPid : k'.runningPid = k.parentOf^[n] k.runningPid
  numProcesses : k'.current.numProcesses = k.current.numProcesses - n
  pcb : k'.pcb = k.pcb
  live : ∀ p, k'.live p ↔ k.live p ∧ ∀ i < n, p ≠ k.parentOf^[i] k.runningPid
  terminal : ∀ t ≠ k.termCur, k'.terminal t = k.terminal t

namespace Unwound

theorem refl : Unwound k 0 k where
  termCur := rfl
  runningPid := rfl
  numProcesses := by simp
  pcb := rfl
  live p := by simp
  terminal _ _ := rfl

theorem head {k'' : Kernel} {n : ℕ} (h : Unwound k 1 k') (h' : Unwound k' n k'') :
    Unwound k (n + 1) k'' := by
  have hparent : k'.parentOf = k.parentOf := by
    funext p
    rw [Kernel.parentOf, h.pcb]
    rfl
  have hrun (i : ℕ) : k'.parentOf^[i] k'.runningPid = k.parentOf^[i + 1] k.runningPid := by
    rw [hparent, h.runningPid, iterate_one, iterate_succ_apply]
  refine ⟨h'.termCur.trans h.termCur, h'.runningPid.trans (hrun n), ?_, h'.pcb.trans h.pcb,
    fun p ↦ ?_, fun t ht ↦ ?_⟩
  · rw [h'.numProcesses, h.numProcesses]
    omega
  · rw [h'.live, h.live]
    constructor
    · rintro ⟨⟨hp, hfirst⟩, hrest⟩
      refine ⟨hp, fun i hi ↦ ?_⟩
      cases i with
      | zero => exact hfirst 0 Nat.zero_lt_one
      | succ i =>
        rw [← hrun]
        exact hrest i (Nat.lt_of_succ_lt_succ hi)
    · rintro ⟨hp, hall⟩
      refine ⟨⟨hp, fun i hi ↦ hall i (by omega)⟩, fun i hi ↦ ?_⟩
      rw [hrun]
      exact hall (i + 1) (Nat.succ_lt_succ hi)
  · rw [h'.terminal t (h.termCur ▸ ht), h.terminal t ht]

end Unwound

theorem Kernel.installed_numProcesses {site : CallSite} {args : List UInt8} {mem : Memory} :
    (k.installed b site p args mem).current.numProcesses = k.current.numProcesses + 1 := by
  simp [Kernel.current, Kernel.installed]

namespace Forest

theorem halt_unwound (h : Forest k held) :
    Unwound k 1 (k.retired.resumed k.runningPid) where
  termCur := rfl
  runningPid := h.resumed_runningPid
  numProcesses := by
    have hterm := Kernel.resumed_terminal_current k.retired k.runningPid
    have hcount : (k.retired.resumed k.runningPid).current.numProcesses =
      k.retired.current.numProcesses := (congrArg Terminal.numProcesses hterm).trans rfl
    rw [hcount, Kernel.retired_numProcesses]
    rfl
  pcb := rfl
  live p := by
    have hlive : (k.retired.resumed k.runningPid).live p ↔ k.retired.live p := Iff.rfl
    rw [hlive, h.toStacked.live_retired h.current]
    simp
  terminal t ht := by
    rw [Kernel.resumed_terminal_of_ne k.retired _ ht, Kernel.retired_terminal_of_ne k ht]

theorem halts_nested (h : Forest k held) (hl : Loadable b.image shellCommand)
    (statuses : List UInt8) (hlt : (statuses.length : ℤ) < k.current.numProcesses) :
    ∃ k', run (Kernel.step b) k (statuses.map .halt) = some k' ∧ Unwound k statuses.length k' := by
  induction statuses generalizing k held with
  | nil => exact ⟨k, rfl, .refl⟩
  | cons status statuses ih =>
    rw [List.length_cons] at hlt
    have hne : k.current.numProcesses ≠ 1 := by omega
    have hstep : k.step b (.halt status) = some (k.retired.resumed k.runningPid) := by
      rw [Kernel.step, h.halt_nested hne]
      rfl
    have hone := h.halt_unwound
    obtain ⟨held', hf, -⟩ := h.step hl hstep
    obtain ⟨k', hr, hrest⟩ := ih hf (by rw [hone.numProcesses]; omega)
    exact ⟨k', run_cons_eq_some.mpr ⟨_, hstep, hr⟩, hone.head hrest⟩

theorem halt_respawns (h : Forest k held) (hl : Loadable b.image shellCommand)
    (hone : k.current.numProcesses = 1) (status : UInt8) :
    ∃ k', k.step b (.halt status) = some k' ∧ k'.termCur = k.termCur ∧
      k'.current.numProcesses = 1 := by
  obtain ⟨p, mem, entry, -, hhalt⟩ := h.halt_last hl hone status
  refine ⟨_, congrArg (Option.map Prod.fst) hhalt, rfl, ?_⟩
  have hretired : k.retired.current.numProcesses = k.current.numProcesses - 1 :=
    Kernel.retired_numProcesses
  rw [Kernel.installed_numProcesses, hretired, hone, sub_self, zero_add]

theorem halts_respawn (h : Forest k held) (hl : Loadable b.image shellCommand)
    (hone : k.current.numProcesses = 1) (statuses : List UInt8) :
    ∃ k', run (Kernel.step b) k (statuses.map .halt) = some k' ∧ k'.termCur = k.termCur ∧
      k'.current.numProcesses = 1 ∧ ∀ t ≠ k.termCur, SameStack k k' t := by
  induction statuses generalizing k held with
  | nil => exact ⟨k, rfl, rfl, hone, fun t _ ↦ .of_eq rfl⟩
  | cons status statuses ih =>
    obtain ⟨k₁, hstep, hcur, hone'⟩ := h.halt_respawns hl hone status
    obtain ⟨held', hf, hothers⟩ := h.step hl hstep
    obtain ⟨k', hr, hcur', hcount, hrest⟩ := ih hf hone'
    rw [hcur] at hothers hcur' hrest
    exact ⟨k', run_cons_eq_some.mpr ⟨_, hstep, hr⟩, hcur', hcount,
      fun t ht ↦ (hothers t ht).2.trans (hrest t ht)⟩

end Forest

/-- Every process that waits for another one will find room on its stack. -/
structure RoomBeneath (s : StackUse) (k : Kernel) : Prop where
  fits : ∀ p, k.live p → k.parentOf p ≠ p →
    (getPcb (k.parentOf p)).toNat + pcbSize + s.most ≤ (k.pcb p).parentEsp.toNat
  own : ∀ p, k.live p → k.parentOf p ≠ p →
    (k.pcb p).parentEsp.toNat ≤ (kernelStackTop (k.parentOf p)).toNat

namespace RoomBeneath

theorem step_halt (h : RoomBeneath s k) (hf : Forest k held) (hl : Loadable b.image shellCommand)
    (hon : OnStack s k) (hk : k.step b (.halt status) = some k') :
    RoomBeneath s k' ∧ OnStack s k' := by
  have hlt := hf.running_lt
  have hlive (q : ℕ) : k.retired.live q ↔ k.live q ∧ q ≠ k.runningPid :=
    hf.toStacked.live_retired hf.current
  by_cases hone : k.current.numProcesses = 1
  · obtain ⟨p, mem, entry, hnew, hhalt⟩ := hf.halt_last hl hone status
    rw [Kernel.step, hhalt] at hk
    obtain rfl := Option.some.inj hk
    have hkept (q : ℕ) (hq : (k.retired.installed b .halt p (commandArgs shellCommand.text)
        mem).live q) (hne : (k.retired.installed b .halt p (commandArgs shellCommand.text)
        mem).parentOf q ≠ q) : q ≠ p ∧ k.live q := by
      have hqp : q ≠ p := by
        rintro rfl
        refine hne ?_
        simp only [Kernel.parentOf, Kernel.installed, update_self]
        rw [if_pos (by rw [Kernel.retired_numProcesses, hone, sub_self])]
      exact ⟨hqp, ((hlive q).mp (((Kernel.live_installed hnew).mp hq).resolve_right hqp)).1⟩
    have hsame {q : ℕ} (hqp : q ≠ p) : (k.retired.installed b .halt p
        (commandArgs shellCommand.text) mem).pcb q = k.pcb q := update_of_ne hqp _ _
    refine ⟨⟨fun q hq hne ↦ ?_, fun q hq hne ↦ ?_⟩, .of_top ?_ ?_ (hon.fits_block hlt)⟩
    · obtain ⟨hqp, hlive⟩ := hkept q hq hne
      simp only [Kernel.parentOf, hsame hqp] at hne ⊢
      exact h.fits q hlive hne
    · obtain ⟨hqp, hlive⟩ := hkept q hq hne
      simp only [Kernel.parentOf, hsame hqp] at hne ⊢
      exact h.own q hlive hne
    · rw [runningPid_installed]
      rfl
    · rw [runningPid_installed]
      exact (Kernel.getNewPid_eq_some hnew).1
  · rw [Kernel.step, hf.halt_nested hone] at hk
    obtain rfl := Option.some.inj hk
    have hparent : k.parentOf k.runningPid ≠ k.runningPid :=
      hf.resumed_runningPid ▸ hf.resumed_runningPid_ne hone
    have hrun := hf.running_live hf.current
    refine ⟨⟨fun q hq hne ↦ h.fits q ((hlive q).mp hq).1 hne,
      fun q hq hne ↦ h.own q ((hlive q).mp hq).1 hne⟩, ?_, ?_⟩
    · rw [hf.resumed_runningPid]
      exact h.fits _ hrun hparent
    · rw [hf.resumed_runningPid]
      exact h.own _ hrun hparent

/-- While processes only end, there is room on every stack that is come back to. -/
theorem halts (h : RoomBeneath s k) (hf : Forest k held) (hl : Loadable b.image shellCommand)
    (hon : OnStack s k) (hr : run (Kernel.step b) k (statuses.map .halt) = some k') :
    RunsOnStack b s k (statuses.map .halt) k' := by
  induction statuses generalizing k held with
  | nil =>
    obtain rfl := Option.some.inj hr
    exact .nil hon
  | cons status statuses ih =>
    obtain ⟨k₁, hstep, hr⟩ := run_cons_eq_some.mp hr
    obtain ⟨hroom₁, hon₁⟩ := h.step_halt hf hl hon hstep
    obtain ⟨held₁, hf₁, -⟩ := hf.step hl hstep
    have hstep' : k.stepOnStack b s (.halt status) = some k₁ := by
      rw [hon.stepOnStack_eq hf.running_lt]
      exact hstep
    exact (ih hroom₁ hf₁ hon₁ hr).cons hstep' hon

end RoomBeneath

/-- In every state that is reached while the kernel stacks hold out, and in which the processes
that wait have room on theirs, the processes of the current terminal can end one after the other,
as often as one likes: each time the process that started the last one goes on, with its terminal
and all other processes as they were, and behind the first process there is always another
shell. -/
theorem halts_unwind (hb : Boots b m k₀) (hr : RunsOnStack b s k₀ es k) (hroom : RoomBeneath s k)
    (statuses : List UInt8) :
    ∃ k', RunsOnStack b s k (statuses.map .halt) k' ∧
      ((statuses.length : ℤ) < k.current.numProcesses → Unwound k statuses.length k') ∧
      (k.current.numProcesses ≤ statuses.length →
        k'.termCur = k.termCur ∧ k'.current.numProcesses = 1 ∧
          ∀ t ≠ k.termCur, SameStack k k' t) := by
  have hl := (boots_cases hb).1
  obtain ⟨held, hf⟩ := hr.forest hb
  have hon := hr.onStack
  have hpos : 0 < k.current.numProcesses := by
    rw [hf.numProcesses_eq]
    exact Int.natCast_pos.mpr (List.length_pos_iff.mpr hf.current)
  by_cases hlt : (statuses.length : ℤ) < k.current.numProcesses
  · obtain ⟨k', hrun, hu⟩ := hf.halts_nested hl statuses hlt
    exact ⟨k', hroom.halts hf hl hon hrun, fun _ ↦ hu, fun hle ↦ absurd hle (by omega)⟩
  · obtain ⟨n, hn⟩ : ∃ n : ℕ, k.current.numProcesses = n + 1 :=
      ⟨(k.current.numProcesses - 1).toNat, by omega⟩
    have htake : ((statuses.take n).length : ℤ) = n := by
      rw [List.length_take]
      omega
    obtain ⟨k₁, hfirst, hu⟩ := hf.halts_nested hl (statuses.take n) (by omega)
    obtain ⟨held₁, hf₁⟩ : ∃ held, Forest k₁ held := by
      refine invariant (I := fun k ↦ ∃ held, Forest k held) ?_ ⟨held, hf⟩ hfirst
      rintro k a k' ⟨held, hf⟩ hk
      obtain ⟨held', hf', -⟩ := hf.step hl hk
      exact ⟨held', hf'⟩
    have hone : k₁.current.numProcesses = 1 := by
      rw [hu.numProcesses, hn, htake]
      omega
    obtain ⟨k', hrest, hcur, hcount, hothers⟩ := hf₁.halts_respawn hl hone (statuses.drop n)
    have hall : run (Kernel.step b) k (statuses.map .halt) = some k' := by
      rw [← List.take_append_drop n statuses, List.map_append, run_append, hfirst,
        Option.bind_some]
      exact hrest
    refine ⟨k', hroom.halts hf hl hon hall, fun h ↦ absurd h hlt,
      fun _ ↦ ⟨hcur.trans hu.termCur, hcount, fun t ht ↦ ?_⟩⟩
    rw [hu.termCur] at hothers
    exact (SameStack.of_eq (hu.terminal t ht)).trans (hothers t ht)

theorem halts_unwind_sample : ∃ k₀ k₁ k', Boots sampleBuild sampleMachine k₀ ∧
    run (Kernel.stepOnStack sampleBuild sampleUse) k₀ [.execute (some shellCommand)] = some k₁ ∧
    run (Kernel.stepOnStack sampleBuild sampleUse) k₁ [.halt 7, .halt 0] = some k' ∧
    k'.current.numProcesses = 1 := by
  obtain ⟨k₀, k₁, entry, held, hb, hexec, hf, htwo⟩ := sample_child
  have hl := (boots_cases hb).1
  have hf₀ := boots_forest hb
  have hpid := boots_runningPid hb
  have hchild := hf₀.execute_child hl (by decide) hexec
  have hon := boots_onStack (s := sampleUse) hb (by decide)
  obtain ⟨htop, hlt⟩ := Kernel.execute_top (by decide) hexec
  have hon₁ : OnStack sampleUse k₁ := .of_top htop hlt (by decide)
  have hstep : k₀.stepOnStack sampleBuild sampleUse (.execute (some shellCommand)) = some k₁ := by
    rw [hon.stepOnStack_eq hf₀.running_lt]
    exact Kernel.step_execute hexec
  have hwaits {q : ℕ} (hq : k₁.live q) (hne : k₁.parentOf q ≠ q) :
      k₁.parentOf q = 0 ∧ (k₁.pcb q).parentEsp = 0x7FFE4C := by
    rcases (Kernel.execute_live (by decide) hexec).mp hq with hold | rfl
    · have hstays : ¬ Ends q k₀ (.execute (some shellCommand)) := by
        rintro ⟨-, ⟨⟩ | hexit⟩
        exact absurd hexit (by decide)
      have hsame := (hf₀.step_link hl (Kernel.step_execute hexec) hold hstays).1
      obtain rfl := (boots_live_iff hb).mp hold
      exact absurd (hsame.trans (boots_parentOf hb)) hne
    · exact ⟨hchild.parent.trans hpid, by
        rw [hchild.frame, (boots_stackInv hb).2.top, hpid]
        decide⟩
  have hroom : RoomBeneath sampleUse k₁ := by
    refine ⟨fun q hq hne ↦ ?_, fun q hq hne ↦ ?_⟩
    · obtain ⟨hparent, hesp⟩ := hwaits hq hne
      rw [hparent, hesp]
      decide
    · obtain ⟨hparent, hesp⟩ := hwaits hq hne
      rw [hparent, hesp]
      decide
  obtain ⟨k', hrun, -, hall⟩ := halts_unwind hb ((RunsOnStack.nil hon₁).cons hstep hon) hroom [7, 0]
  exact ⟨k₀, k₁, k', hb, run_cons_eq_some.mpr ⟨k₁, hstep, rfl⟩, hrun.run,
    (hall (by rw [htwo]; decide)).2.1⟩

end ApollOS
