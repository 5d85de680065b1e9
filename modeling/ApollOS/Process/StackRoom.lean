import ApollOS.Kernel.CallStack
import ApollOS.Process.KernelStack

namespace ApollOS

open Function Runs Words WordStack

variable {b : Build} {s : StackUse} {k k' u : Kernel} {held : Fin maxTerminals → List ℕ}
  {a : Action} {es : List Action} {p q used : ℕ} {mem : Bytes} {words : List UInt32} {x : UInt32}

section Current

theorem pidAt_getPcb (hp : p < maxProcesses) : pidAt (getPcb p) = p := by
  rw [pidAt, getPcb_toNat hp]
  simp only [maxProcesses, physicalStart, eightKbBlock] at *
  omega

theorem toNat_sub_toUInt32 {x : UInt32} {n : ℕ} (h : n ≤ x.toNat) :
    (x - n.toUInt32).toNat = x.toNat - n := by
  have hx := x.toNat_lt
  have hn : n.toUInt32.toNat = n := by
    simpa using Nat.mod_eq_of_lt (show n < 2 ^ 32 by omega)
  rw [UInt32.toNat_sub_of_le _ _ (UInt32.le_iff_toNat_le.mpr (hn.symm ▸ h)), hn]

namespace OnStack

variable (h : OnStack s k) (hp : k.runningPid < maxProcesses)

include h hp

theorem low : physicalStart - (k.runningPid + 1) * eightKbBlock + pcbSize + s.most ≤
    k.esp0.toNat := by
  have hfits := h.fits
  rwa [getPcb_toNat hp] at hfits

theorem high : k.esp0.toNat ≤ physicalStart - k.runningPid * eightKbBlock - magicSize := by
  have hown := h.own
  rwa [kernelStackTop_toNat hp] at hown

theorem getCurrentPcb_eq (hu : used ≤ s.most) :
    getCurrentPcb (k.esp0 - used.toUInt32) = getPcb k.runningPid := by
  have hlow := h.low hp
  have hhigh := h.high hp
  have hesp := toNat_sub_toUInt32 (x := k.esp0) (n := used) (by omega)
  refine UInt32.toNat_inj.mp ?_
  simp only [maxProcesses, physicalStart, eightKbBlock, magicSize, pcbSize] at *
  rw [getCurrentPcb, UInt32.toNat_and, hesp, and_pcbMask (by omega), getPcb_toNat hp]
  simp only [physicalStart, eightKbBlock]
  omega

theorem currentPid_eq (hu : used ≤ s.most) : k.currentPid used = k.runningPid := by
  rw [Kernel.currentPid, h.getCurrentPcb_eq hp hu, pidAt_getPcb hp]

theorem stepOnStack_eq : k.stepOnStack b s a = k.step b a := by
  cases a with
  | execute command =>
    rw [Kernel.stepOnStack, h.currentPid_eq hp (s.atPcb_le _)]
    rfl
  | halt status =>
    rw [Kernel.stepOnStack, h.currentPid_eq hp (s.atPcb_le _)]
    rfl
  | fdCall call =>
    rw [Kernel.stepOnStack, h.currentPid_eq hp (s.atPcb_le _)]
    rfl
  | console e => rfl
  | vidmap screenStart => rfl

/-- What a call leaves on its stack lies between the process's PCB and the end of its block. -/
theorem stacked (hw : 4 * words.length ≤ s.most)
    (hx : x.toNat < physicalStart - (k.runningPid + 1) * eightKbBlock + pcbSize ∨
      physicalStart - k.runningPid * eightKbBlock ≤ x.toNat) :
    pushed mem k.esp0 words x = mem x := by
  have hlow := h.low hp
  have hhigh := h.high hp
  refine pushed_frame ?_ ?_
  · unfold WordStack.Fits
    simp only [physicalStart] at hhigh
    omega
  · have hdown := toNat_sub_toUInt32 (x := k.esp0) (n := 4 * words.length) (by omega)
    rw [lowered_eq, mem_span, UInt32.toNat_sub, hdown]
    have := x.toNat_lt
    simp only [maxProcesses, physicalStart, eightKbBlock, magicSize, pcbSize] at *
    omega

theorem spares (hw : 4 * words.length ≤ s.most) {q i : ℕ} (hq : q < maxProcesses)
    (hi : i < eightKbBlock) (hown : q = k.runningPid → i < pcbSize) :
    pushed mem k.esp0 words (getPcb q + i.toUInt32) = mem (getPcb q + i.toUInt32) := by
  have hbase := getPcb_toNat hq
  have hsum : (getPcb q + i.toUInt32).toNat = physicalStart - (q + 1) * eightKbBlock + i := by
    have hsmall : i.toUInt32.toNat = i := by
      simp only [eightKbBlock] at hi
      simpa using Nat.mod_eq_of_lt (show i < 2 ^ 32 by omega)
    rw [UInt32.toNat_add, hbase, hsmall]
    refine Nat.mod_eq_of_lt ?_
    simp only [physicalStart, eightKbBlock] at *
    omega
  refine h.stacked hp hw ?_
  rw [hsum]
  simp only [maxProcesses, physicalStart, eightKbBlock, pcbSize] at *
  omega

end OnStack

theorem OnStack.congr (h : OnStack s k) (hs : SameProcesses k k') : OnStack s k' := by
  have hpid := hs.runningPid_eq
  refine ⟨?_, ?_⟩
  · rw [hpid, hs.esp0]
    exact h.fits
  · rw [hpid, hs.esp0]
    exact h.own

/-- What a call leaves on its stack does not come into any PCB. -/
def SparesPcbs (s : StackUse) (k : Kernel) : Prop :=
  ∀ mem words, 4 * words.length ≤ s.most → ∀ p < maxProcesses, ∀ i < pcbSize,
    pushed mem k.esp0 words (getPcb p + i.toUInt32) = mem (getPcb p + i.toUInt32)

theorem OnStack.sparesPcbs (h : OnStack s k) (hp : k.runningPid < maxProcesses) :
    SparesPcbs s k :=
  fun _ _ hw _ hq _ hi ↦ h.spares hp hw hq (hi.trans (by decide)) fun _ ↦ hi

/-- What a call leaves on its stack does not come into the block of process `q`. -/
def SparesBlock (s : StackUse) (k : Kernel) (q : ℕ) : Prop :=
  ∀ mem words, 4 * words.length ≤ s.most → ∀ i < eightKbBlock,
    pushed mem k.esp0 words (getPcb q + i.toUInt32) = mem (getPcb q + i.toUInt32)

end Current

section Runs

/-- A run on which the kernel stacks hold out. -/
structure RunsOnStack (b : Build) (s : StackUse) (k : Kernel) (es : List Action) (k' : Kernel) :
    Prop where
  run : run (Kernel.stepOnStack b s) k es = some k'
  room : ∀ u, Passes (Kernel.stepOnStack b s) k es u → OnStack s u

namespace RunsOnStack

variable {k₁ : Kernel}

theorem of_visits (hr : Runs.run (Kernel.stepOnStack b s) k es = some k')
    (hv : ∀ u a, Visits (Kernel.stepOnStack b s) k es u a → OnStack s u) (hend : OnStack s k') :
    RunsOnStack b s k es k' := by
  refine ⟨hr, fun u hu ↦ ?_⟩
  rcases hu.visits_or with ⟨a, hu⟩ | hu
  · exact hv u a hu
  · exact Option.some.inj (hr.symm.trans hu) ▸ hend

theorem onStack (h : RunsOnStack b s k es k') : OnStack s k' := h.room k' (.stop h.run)

theorem nil (hon : OnStack s k) : RunsOnStack b s k [] k :=
  .of_visits rfl (fun _ _ hv ↦ (visits_nil hv).elim) hon

theorem cons (h : RunsOnStack b s k₁ es k')
    (hs : k.stepOnStack b s a = some k₁) (hon : OnStack s k) : RunsOnStack b s k (a :: es) k' := by
  refine ⟨run_cons_eq_some.mpr ⟨k₁, hs, h.run⟩, fun u hu ↦ ?_⟩
  rcases passes_next hs hu with rfl | hu
  · exact hon
  · exact h.room u hu

end RunsOnStack

namespace Forest

variable (hf : Forest k held) (hl : Loadable b.image shellCommand)

include hf hl

/-- As long as the stacks hold out, a run is what it would be if every process had its PCB at
hand. -/
theorem onStack_agrees (h : ∀ u, Passes (Kernel.stepOnStack b s) k es u → OnStack s u) :
    ∀ u a, Visits (Kernel.stepOnStack b s) k es u a → u.step b a = u.stepOnStack b s a := by
  intro u a hv
  have hforest := guarded_invariant (I := fun u ↦ ∃ held, Forest u held)
    (G := fun u _ ↦ OnStack s u) ?_ ⟨held, hf⟩ (fun u a hv ↦ h u hv.passes) hv.passes
  · obtain ⟨held', hf'⟩ := hforest
    exact ((h u hv.passes).stepOnStack_eq hf'.running_lt).symm
  · rintro u a u' ⟨held', hf'⟩ hon hk
    rw [hon.stepOnStack_eq hf'.running_lt] at hk
    obtain ⟨held'', hf'', -⟩ := hf'.step hl hk
    exact ⟨held'', hf''⟩

variable (hr : RunsOnStack b s k es k')

include hr

theorem run_onStack : Runs.run (Kernel.step b) k es = some k' :=
  (run_congr (hf.onStack_agrees hl hr.room)).trans hr.run

end Forest

namespace RunsOnStack

variable {m : Machine} {k₀ : Kernel}

theorem forest (h : RunsOnStack b s k₀ es k) (hb : Boots b m k₀) : ∃ held, Forest k held :=
  reachable_forest hb ((boots_forest hb).run_onStack (boots_cases hb).1 h)

theorem currentPid_eq (h : RunsOnStack b s k₀ es k) (hb : Boots b m k₀) (hu : used ≤ s.most) :
    k.currentPid used = k.runningPid := by
  obtain ⟨held, hf⟩ := h.forest hb
  exact h.onStack.currentPid_eq hf.running_lt hu

/-- The invariant rule for a process that lives on while the kernel stacks hold out. -/
theorem invariant {I : Kernel → Prop} (h : RunsOnStack b s k es k')
    (hforest : ∀ v, I v → ∃ held, Forest v held)
    (hstep : ∀ v a v', I v → v.step b a = some v' → ¬ Ends p v a → I v') (hI : I k)
    (hstay : ∀ v a, Visits (Kernel.stepOnStack b s) k es v a → ¬ Ends p v a)
    (hu : Passes (Kernel.stepOnStack b s) k es u) : I u := by
  refine guarded_invariant (G := fun v a ↦ ¬ Ends p v a ∧ OnStack s v)
    (fun v a v' hv hG hs ↦ ?_) hI (fun v a hv ↦ ⟨hstay v a hv, h.room v hv.passes⟩) hu
  obtain ⟨held, hf⟩ := hforest v hv
  rw [hG.2.stepOnStack_eq hf.running_lt] at hs
  exact hstep v a v' hv hs hG.1

end RunsOnStack

end Runs

end ApollOS
