import ApollOS.Process.StackRoom
import ApollOS.Process.SystemCalls

namespace ApollOS

open Function Runs

variable {b : Build} {m : Machine} {s : StackUse} {k k' k₁ : Kernel}
  {held : Fin maxTerminals → List ℕ} {command : Command} {p n : ℕ}

/-- A program is executed and ends, time after time. -/
def rounds (command : Command) (n : ℕ) : List Action :=
  (List.replicate n [.execute (some command), .halt 0]).flatten

/-- The caller goes on with its processes as they were and less of its kernel stack left. -/
structure Rounded (b : Build) (k : Kernel) (n : ℕ) (k' : Kernel) : Prop where
  forest : ∃ held, Forest k' held
  runningPid : k'.runningPid = k.runningPid
  live : ∀ p, k'.live p ↔ k.live p
  pcb : ∀ p, k.live p → k'.pcb p = k.pcb p
  esp0 : k'.esp0.toNat + n * (b.depth .syscall).toNat = k.esp0.toNat

namespace Rounded

theorem refl (hf : Forest k held) : Rounded b k 0 k where
  forest := ⟨held, hf⟩
  runningPid := rfl
  live _ := Iff.rfl
  pcb _ _ := rfl
  esp0 := by simp

theorem head (h : Rounded b k 1 k₁) (h' : Rounded b k₁ n k') : Rounded b k (n + 1) k' where
  forest := h'.forest
  runningPid := h'.runningPid.trans h.runningPid
  live p := (h'.live p).trans (h.live p)
  pcb p hp := (h'.pcb p ((h.live p).mpr hp)).trans (h.pcb p hp)
  esp0 := by
    have hfirst := h.esp0
    have hrest := h'.esp0
    rw [Nat.add_mul]
    omega

theorem canExecute (h : Rounded b k n k') (hf : Forest k held) : k'.canExecute = k.canExecute := by
  obtain ⟨held', hf'⟩ := h.forest
  exact hf.toStacked.canExecute_congr hf'.toStacked h.live

end Rounded

theorem OnStack.of_top (htop : k.esp0 = kernelStackTop k.runningPid)
    (hp : k.runningPid < maxProcesses) (hs : pcbSize + s.most ≤ kernelStackSize) :
    OnStack s k := by
  refine ⟨?_, htop ▸ le_rfl⟩
  rw [htop, getPcb_toNat hp, kernelStackTop_toNat hp]
  simp only [maxProcesses, kernelStackSize, physicalStart, eightKbBlock, magicSize] at *
  omega

theorem OnStack.fits_block (h : OnStack s k) (hp : k.runningPid < maxProcesses) :
    pcbSize + s.most ≤ kernelStackSize := by
  have hlow := h.low hp
  have hhigh := h.high hp
  simp only [maxProcesses, kernelStackSize, physicalStart, eightKbBlock, magicSize] at *
  omega

namespace Forest

variable (hf : Forest k held) (hl : Loadable b.image shellCommand) (hc : Loadable b.image command)
  (hexit : Kernel.isExit command = false) (hcan : k.canExecute = true)

include hf hl hc hexit hcan

/-- One round: the child starts at the top of a stack of its own, and its end lowers the stack of
the caller. -/
theorem round (hd : (b.depth .syscall).toNat ≤ k.esp0.toNat) :
    ∃ k₁ k₂ entry, k.execute b (some command) = some (k₁, .started entry) ∧
      (∃ held, Forest k₁ held) ∧ k₁.runningPid ≠ k.runningPid ∧
      k₁.esp0 = kernelStackTop k₁.runningPid ∧ k₁.halt b 0 = some (k₂, .resumed 0) ∧
      Rounded b k 1 k₂ := by
  obtain ⟨p, hnew⟩ := hf.toStacked.exists_newPid hcan
  obtain ⟨-, hfree, -⟩ := Kernel.getNewPid_eq_some hnew
  obtain ⟨mem, entry, hlaunch⟩ := Kernel.launch_loadable (b := b) .syscall hc hcan hnew
  have hexec : k.execute b (some command) =
      some (k.installed b .syscall p (commandArgs command.text) mem, .started entry) := by
    rw [Kernel.execute_launch hexit, hlaunch]
  obtain ⟨held₁, hf₁, -⟩ := hf.step hl (Kernel.step_execute hexec)
  generalize hk₁ : k.installed b .syscall p (commandArgs command.text) mem = k₁ at hexec hf₁
  have hrun : k₁.runningPid = p := hk₁ ▸ runningPid_installed
  have hcount : k.current.numProcesses ≠ 0 := by
    have hpos := List.length_pos_iff.mpr hf.current
    rw [hf.numProcesses_eq]
    omega
  have hnested : k₁.current.numProcesses ≠ 1 := by
    rw [← hk₁]
    simp only [Kernel.installed, Kernel.current, update_self]
    intro hone
    exact hcount (by simp only [Kernel.current]; omega)
  have hhalt := hf₁.halt_nested (b := b) hnested 0
  obtain ⟨held₂, hf₂, -⟩ := hf₁.step hl (a := .halt 0) (congrArg (Option.map Prod.fst) hhalt)
  have hparent : k₁.parentOf p = k.runningPid := by
    rw [← hk₁]
    simp only [Kernel.parentOf, Kernel.installed, update_self, if_neg hcount]
    rfl
  refine ⟨k₁, _, entry, hexec, ⟨held₁, hf₁⟩, ?_, by rw [hrun, ← hk₁]; rfl, hhalt, ⟨held₂, hf₂⟩,
    ?_, fun q ↦ ?_, fun q hq ↦ ?_, ?_⟩
  · rw [hrun]
    exact (Kernel.fresh_ne hnew (hf.running_live hf.current)).symm
  · rw [hf₁.resumed_runningPid, hrun, hparent]
  · have hlive : (k₁.retired.resumed k₁.runningPid).live q ↔ k₁.retired.live q := Iff.rfl
    rw [hlive, hf₁.toStacked.live_retired hf₁.current, hrun, ← hk₁, Kernel.live_installed hnew]
    refine ⟨fun h ↦ h.1.resolve_right h.2, fun h ↦ ⟨.inl h, ?_⟩⟩
    rintro rfl
    exact hfree h
  · have hne : q ≠ p := Kernel.fresh_ne hnew hq
    have hsame : k₁.pcb q = k.pcb q := by
      rw [← hk₁]
      exact update_of_ne hne _ _
    exact hsame
  · have hesp : (k₁.retired.resumed k₁.runningPid).esp0 = k.esp0 - b.depth .syscall := by
      have hframe : (k₁.pcb p).parentEsp = k.esp0 - b.depth .syscall := by
        rw [← hk₁]
        simp only [Kernel.installed, update_self]
      rw [← hframe, ← hrun]
      rfl
    rw [hesp, UInt32.toNat_sub_of_le _ _ (UInt32.le_iff_toNat_le.mpr hd)]
    omega

/-- Rounds follow one another for as long as the caller's stack holds out, and it is not the caller
that ends in them. -/
theorem rounds (hown : k.esp0.toNat ≤ (kernelStackTop k.runningPid).toNat)
    (hroom : (getPcb k.runningPid).toNat + pcbSize + s.most + n * (b.depth .syscall).toNat ≤
      k.esp0.toNat + (b.depth .syscall).toNat) (hdepth : (b.depth .syscall).toNat ≤ s.most) :
    ∃ k', run (Kernel.stepOnStack b s) k (rounds command n) = some k' ∧ Rounded b k n k' ∧
      ∀ u a, Visits (Kernel.stepOnStack b s) k (rounds command n) u a →
        OnStack s u ∧ ¬ Ends k.runningPid u a := by
  induction n generalizing k held with
  | zero => exact ⟨k, rfl, .refl hf, fun u a hv ↦ (visits_nil hv).elim⟩
  | succ n ih =>
    rw [Nat.add_mul] at hroom
    have hlt := hf.running_lt
    have hon : OnStack s k := ⟨by omega, hown⟩
    obtain ⟨k₁, k₂, entry, hexec, ⟨held₁, hf₁⟩, hne, htop, hhalt, hround⟩ :=
      hf.round hl hc hexit hcan (by omega)
    have hlt₁ := hf₁.running_lt
    have hon₁ : OnStack s k₁ := .of_top htop hlt₁ (hon.fits_block hlt)
    have hstep : k.stepOnStack b s (.execute (some command)) = some k₁ := by
      rw [hon.stepOnStack_eq hlt]
      exact Kernel.step_execute hexec
    have hstep₁ : k₁.stepOnStack b s (.halt 0) = some k₂ := by
      rw [hon₁.stepOnStack_eq hlt₁]
      exact congrArg (Option.map Prod.fst) hhalt
    obtain ⟨held₂, hf₂⟩ := hround.forest
    have hesp := hround.esp0
    obtain ⟨k', hr, hrest, hon'⟩ := ih hf₂ ((hround.canExecute hf).trans hcan)
      (by rw [hround.runningPid]; omega) (by rw [hround.runningPid]; omega)
    refine ⟨k', run_cons_eq_some.mpr ⟨k₁, hstep, run_cons_eq_some.mpr ⟨k₂, hstep₁, hr⟩⟩,
      hround.head hrest, fun u a hv ↦ ?_⟩
    rcases visits_next hstep hv with ⟨rfl, rfl⟩ | hv
    · refine ⟨hon, ?_⟩
      rintro ⟨-, ⟨⟩ | hyes⟩
      rw [hexit] at hyes
      cases hyes
    rcases visits_next hstep₁ hv with ⟨rfl, -⟩ | hv
    · exact ⟨hon₁, fun hends ↦ hne hends.1⟩
    exact hround.runningPid ▸ hon' u a hv

end Forest

theorem boots_onStack (hb : Boots b m k) (hs : pcbSize + s.most ≤ kernelStackSize) :
    OnStack s k := by
  have hf := boots_forest hb
  exact .of_top (boots_stackInv hb).2.top hf.running_lt hs

theorem Kernel.execute_top {entry : UInt32} (hexit : isExit command = false)
    (hx : k.execute b (some command) = some (k', .started entry)) :
    k'.esp0 = kernelStackTop k'.runningPid ∧ k'.runningPid < maxProcesses := by
  rw [execute_launch hexit] at hx
  rcases launch_cases hx with ⟨v, s, ho, -⟩ | ⟨p, mem, e, -, hnew, -, rfl, -⟩
  · cases ho
  rw [runningPid_installed]
  exact ⟨rfl, (getNewPid_eq_some hnew).1⟩

theorem Kernel.execute_live {entry : UInt32} (hexit : isExit command = false)
    (hx : k.execute b (some command) = some (k', .started entry)) :
    k'.live p ↔ k.live p ∨ p = k'.runningPid := by
  rw [execute_launch hexit] at hx
  rcases launch_cases hx with ⟨v, s, ho, -⟩ | ⟨q, mem, e, -, hnew, -, rfl, -⟩
  · cases ho
  rw [runningPid_installed]
  exact live_installed hnew

section Sample

def sampleUse : StackUse where
  atPcb _ := 100
  most := 468
  atPcb_le _ := by decide

theorem sample_rounds (hf : Forest k held) (hcan : k.canExecute = true)
    (htop : k.esp0 = kernelStackTop k.runningPid) (hn : n ≤ 18) :
    ∃ k', run (Kernel.stepOnStack sampleBuild sampleUse) k (rounds shellCommand n) = some k' ∧
      Rounded sampleBuild k n k' ∧
      (∀ u a, Visits (Kernel.stepOnStack sampleBuild sampleUse) k (rounds shellCommand n) u a →
        OnStack sampleUse u ∧ ¬ Ends k.runningPid u a) ∧ (n < 18 → OnStack sampleUse k') := by
  have hlt := hf.running_lt
  have hbase := getPcb_toNat hlt
  have hlast := kernelStackTop_toNat hlt
  have hdepth : (sampleBuild.depth .syscall).toNat = 432 := rfl
  have hmost : sampleUse.most = 468 := rfl
  have hsize : pcbSize = 376 := rfl
  rw [← htop] at hlast
  simp only [maxProcesses, physicalStart, eightKbBlock, magicSize] at hlt hbase hlast
  obtain ⟨k', hr, hrounded, hv⟩ := hf.rounds (b := sampleBuild) (s := sampleUse)
    sampleImage_loadable sampleImage_loadable (by decide) hcan (n := n) (by rw [htop])
    (by rw [hdepth, hmost, hsize]; omega) (by decide)
  refine ⟨k', hr, hrounded, hv, fun hn ↦ ⟨?_, ?_⟩⟩
  · have hesp := hrounded.esp0
    rw [hrounded.runningPid, hmost, hsize]
    rw [hdepth] at hesp
    omega
  · have hesp := hrounded.esp0
    rw [hrounded.runningPid, ← htop]
    omega

/-- The processor's part of the kernel, where the task state segment names a stack. -/
def sampleBoardOn (esp0 : UInt32) : Board := { sampleBoard with esp0 := esp0 }

theorem sampleBoardOn_assembled (esp0 : UInt32) : Assembled (sampleBoardOn esp0) sampleSymbols where
  table := sample_assembled.table
  idt := sample_assembled.idt
  handleRtc := sample_assembled.handleRtc
  handleKeyboard := sample_assembled.handleKeyboard
  handleSyscall := sample_assembled.handleSyscall
  badSyscall := sample_assembled.badSyscall
  wrapper := sample_assembled.wrapper
  start := sample_assembled.start

end Sample

end ApollOS
