import ApollOS.Hardware.Instructions
import ApollOS.Hardware.InterruptTable

namespace ApollOS

open Function Words WordStack

variable {m : Board} {sym : Symbols} {p q : Processor} {h : Handler} {func : UInt32} {n : ℕ}

theorem Assembled.device_gate (hm : Assembled m sym) (hn : n < numVec) (hlow : 32 ≤ n)
    (hne : n ≠ intSyscall) (hh : namedEntries.lookup n = some h) : gate (m.idt n) = some
      { offset := sym.handler h
        selector := kernelCs
        dpl := 0
        trap := false } := by
  have hnot : ¬(n < 32 ∨ n = intSyscall) := by omega
  rw [hm.idt n hn, gate_initIdt hn, vectorOffset, hh, if_neg hne, decide_eq_false hnot]

/-- What `MAKE_HANDLER` does before it calls the function. -/
def savingAll : List Operation := [.pushal, .pushfl]

def restoringAll : List Operation := [.popfl, .popal, .sti]

/-- The words that lie above the frame of the interrupt while the function runs. -/
def Processor.wholeState (p : Processor) : List UInt32 :=
  [p.eflags, p.reg .edi, p.reg .esi, p.reg .ebp, p.esp, p.reg .ebx, p.reg .edx, p.reg .ecx,
    p.reg .eax]

theorem execAll_savingAll : execAll savingAll p =
    { p with esp := lowered p.esp p.wholeState, mem := pushed p.mem p.esp p.wholeState } := by
  simp only [execAll, savingAll, List.foldl_cons, List.foldl_nil, Operation.exec, Processor.push,
    Processor.wholeState, lowered, pushed]

theorem execAll_restoringAll {words : List UInt32}
    (hq : Holds q.mem q.esp (p.wholeState ++ words)) :
    ∃ w, execAll restoringAll q = { q with esp := q.esp + 36, reg := p.reg, eflags := w } ∧
      Holds q.mem (q.esp + 36) words := by
  obtain ⟨-, hedi, hesi, hebp, -, hebx, hedx, hecx, heax, hrest⟩ := hq
  have hesp : q.esp + 4 + 4 + 4 + 4 + 4 + 4 + 4 + 4 + 4 = q.esp + 36 := by grind
  have hregs : update (update (update (update (update (update (update q.reg
      .edi (load q.mem (q.esp + 4))) .esi (load q.mem (q.esp + 4 + 4)))
      .ebp (load q.mem (q.esp + 4 + 4 + 4))) .ebx (load q.mem (q.esp + 4 + 4 + 4 + 4 + 4)))
      .edx (load q.mem (q.esp + 4 + 4 + 4 + 4 + 4 + 4)))
      .ecx (load q.mem (q.esp + 4 + 4 + 4 + 4 + 4 + 4 + 4)))
      .eax (load q.mem (q.esp + 4 + 4 + 4 + 4 + 4 + 4 + 4 + 4)) = p.reg := by
    rw [hedi, hesi, hebp, hebx, hedx, hecx, heax]
    funext r
    cases r <;> rfl
  rw [hesp] at hrest
  refine ⟨setFlag (load q.mem q.esp) ifFlag true, ?_, hrest⟩
  rw [← hregs, ← hesp]
  rfl

/-- A device interrupts a program or the kernel, while interrupts are let in. Its handler calls the
function that serves the device, with interrupts shut out, and whatever that function does, what was
interrupted goes on with all its registers, its flags and its stack as they were. -/
theorem interrupt_transparent (hm : Assembled m sym) (hif : flag p.eflags ifFlag = true)
    (hn : (n, func) ∈ [(intRtc, sym.rtcHandler), (intKeyboard, sym.keyboardHandler)]) :
    ∃ s e saved, m.interrupt n p = some s ∧ Reaches m s e ∧ Enters e func [] saved ∧
      flag e.eflags ifFlag = false ∧
      ∀ q, Returns e q [] saved → Reaches m q { p with mem := q.mem } := by
  obtain ⟨h, hgate, b, hlist⟩ : ∃ h, gate (m.idt n) = some ⟨sym.handler h, kernelCs, 0, false⟩ ∧
      ∃ b, LiesAt m.code (sym.handler h) (Symbols.makeHandler func) b := by
    simp only [List.mem_cons, Prod.mk.injEq, List.not_mem_nil, or_false] at hn
    rcases hn with ⟨rfl, rfl⟩ | ⟨rfl, rfl⟩
    · exact ⟨_, hm.device_gate (by decide) (by decide) (by decide) rfl, hm.handleRtc⟩
    · exact ⟨_, hm.device_gate (by decide) (by decide) (by decide) rfl, hm.handleKeyboard⟩
  have hsplit : Symbols.makeHandler func = savingAll.map .plain ++ (.call func ::
      (restoringAll.map .plain ++ [.iret])) := rfl
  rw [hsplit] at hlist
  obtain ⟨a, hblock, after, hcall, hlist⟩ := liesAt_append.mp hlist
  obtain ⟨a', hblock', c, hiret, -⟩ := liesAt_append.mp hlist
  let s := p.enter m ⟨sym.handler h, kernelCs, 0, false⟩ p.eip
  have hring : s.cpl = 0 := cpl_kernelCs rfl
  let t : Processor := { s with
    esp := lowered s.esp s.wholeState
    mem := pushed s.mem s.esp s.wholeState }
  have hsave : Reaches m s (t.goto a) := by
    have hgo := Reaches.block (p := s) hblock fun _ _ _ ↦ hring
    rwa [execAll_savingAll] at hgo
  have hstep : m.step (t.goto a) = some (((t.goto a).push after).goto func) :=
    Board.step_call hcall
  have hfits : Fits (after :: (s.wholeState ++ p.frame p.eip)) := by
    have hnine : s.wholeState.length = 9 := rfl
    have hframe := @length_frame_le p p.eip
    unfold WordStack.Fits
    rw [List.length_cons, List.length_append, hnine]
    omega
  have hmem : s.mem = pushed p.mem (p.frameBase m) (p.frame p.eip) := rfl
  have hesp : s.esp = lowered (p.frameBase m) (p.frame p.eip) := rfl
  have hstack := Holds.of_pushed p.mem (p.frameBase m) hfits
  rw [pushed, lowered, pushed_append, lowered_append, ← hmem, ← hesp] at hstack
  refine ⟨s, ((t.goto a).push after).goto func, s.wholeState ++ p.frame p.eip, ?_,
    hsave.trans (.head hstep .refl), ⟨rfl, cpl_kernelCs rfl, ?_⟩, ?_, fun q hq ↦ ?_⟩
  · rw [Board.interrupt, if_pos hif, hgate]
    rfl
  · rw [Processor.goto_mem, Processor.goto_esp, Processor.push_mem, Processor.push_esp]
    exact hstack.2
  · rw [Processor.goto_eflags, Processor.push_eflags, Processor.goto_eflags]
    exact flag_entryFlags
  · have hring' : q.cpl = 0 := cpl_kernelCs hq.cs
    have hafter : q.eip = after := hq.eip.trans hstack.1
    have hup : q.esp = lowered s.esp s.wholeState := by
      refine hq.esp.trans ?_
      rw [Processor.goto_esp, Processor.push_esp]
      exact UInt32.sub_add_cancel _ _
    rw [← hafter] at hblock'
    have hdown := Reaches.block hblock' fun _ _ _ ↦ hring'
    have hsaved : Holds q.mem q.esp (s.wholeState ++ p.frame p.eip) := by
      have hargs := hq.saved
      have hnone : (4 * ([] : List UInt32).length).toUInt32 = 0 := rfl
      rwa [hnone, UInt32.add_zero] at hargs
    obtain ⟨w, hexec, hframe⟩ := execAll_restoringAll hsaved
    rw [hexec] at hdown
    refine hdown.trans (.head ?_ .refl)
    rw [Board.step_eq hiret, Board.exec]
    refine (if_pos hring').trans (congrArg some ?_)
    refine (iret_frame m p p.eip ?_ ?_ hframe).trans rfl
    · intro hzero
      exact hq.ss.trans (if_pos hzero)
    · have hadd := lowered_add s.esp s.wholeState
      rw [← hup] at hadd
      exact hadd

theorem interrupt_transparent_sample : ∃ s e,
    sampleBoard.interrupt intRtc (sampleCaller 131 3) = some s ∧ Reaches sampleBoard s e ∧
    e.eip = 320 := by
  have hif : flag (sampleCaller 131 3).eflags ifFlag = true := rfl
  have hrtc : (intRtc, 320) ∈ [(intRtc, sampleSymbols.rtcHandler),
      (intKeyboard, sampleSymbols.keyboardHandler)] := List.mem_cons_self
  obtain ⟨s, e, saved, hs, hreach, henters, -⟩ :=
    interrupt_transparent sample_assembled hif hrtc
  exact ⟨s, e, hs, hreach, henters.eip⟩

end ApollOS
