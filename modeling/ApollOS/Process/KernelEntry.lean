import ApollOS.Kernel.Pic
import ApollOS.Process.SystemCalls

namespace ApollOS

open Function Relation

variable {m : Board} {sym : Symbols} {p q s : Processor} {n irq : ℕ} {next back code : UInt32}

/-- The vector of an interrupt line, as `i8259_init` tells the chips. -/
def irqVector (irq : ℕ) : ℕ :=
  if irq < 8 then icw2Master.toNat + irq else icw2Slave.toNat + (irq - 8)

/-- What happens next: the processor runs an instruction, a device interrupts it, or an exception
comes up. An `int` that the table refuses is not run: there the exception follows. -/
inductive Board.Goes (m : Board) (p q : Processor) : Prop
  | runs : m.step p = some q → Goes m p q
  | device (irq : ℕ) : irq < 16 → m.interrupt (irqVector irq) p = some q → Goes m p q
  | exception (n : ℕ) (back code : UInt32) :
    n < 32 → m.exception n back code p = some q → Goes m p q

def vectorGate (sym : Symbols) (n : ℕ) : Gate where
  offset := vectorOffset sym.handler n
  selector := kernelCs
  dpl := if n = intSyscall then 3 else 0
  trap := decide (n < 32 ∨ n = intSyscall)

inductive EntersKernel (m : Board) (sym : Symbols) (s : Processor) : Processor → Prop
  | syscall {next : UInt32} : m.code s.eip = some (.int 0x80, next) →
    EntersKernel m sym s (s.trapped m sym next)
  | device {irq : ℕ} : irq < 16 → flag s.eflags ifFlag = true →
    EntersKernel m sym s (s.enter m (vectorGate sym (irqVector irq)) s.eip)
  | exception {n : ℕ} (back code : UInt32) : n < 32 → EntersKernel m sym s
    (if Board.pushesCode n then (s.enter m (vectorGate sym n) back).push code
      else s.enter m (vectorGate sym n) back)

theorem irqVector_bounds (h : irq < 16) : 32 ≤ irqVector irq ∧ irqVector irq < 48 := by
  have hmaster : icw2Master.toNat = 32 := rfl
  have hslave : icw2Slave.toNat = 40 := rfl
  rw [irqVector, hmaster, hslave]
  split_ifs <;> omega

theorem Assembled.gate_eq (hm : Assembled m sym) (hn : n < numVec) :
    gate (m.idt n) = some (vectorGate sym n) := by
  rw [hm.idt n hn, gate_initIdt hn]
  rfl

theorem Assembled.step_user (hm : Assembled m sym)
    (hbody : ∀ a f b, m.code a = some (.body f, b) → ∀ s, (f s).cs = s.cs) (hring : p.cpl ≠ 0)
    (hstep : m.step p = some q) : q.cpl ≠ 0 ∨ EntersKernel m sym p q := by
  obtain ⟨⟨i, next⟩, hcode, hexec⟩ := Option.bind_eq_some_iff.mp hstep
  cases i with
  | plain op =>
    left
    dsimp only [Board.exec] at hexec
    split at hexec
    · cases hexec
    · obtain rfl := Option.some.inj hexec
      have hcpl := op.exec_cpl (p := p)
      exact fun h ↦ hring (hcpl.symm.trans h)
  | int n =>
    right
    obtain ⟨g, hgate, hallowed⟩ := Option.bind_eq_some_iff.mp hexec
    rw [hm.gate_eq n.toNat_lt] at hgate
    obtain rfl := Option.some.inj hgate
    split_ifs at hallowed with hle
    obtain rfl := Option.some.inj hallowed
    have hn : n.toNat = intSyscall := by
      by_contra hn
      exact hring (Nat.le_zero.mp (hle.trans_eq (if_neg hn)))
    obtain rfl : n = 0x80 := UInt8.toNat_inj.mp hn
    exact .syscall hcode
  | iret =>
    dsimp only [Board.exec] at hexec
    rw [if_neg hring] at hexec
    cases hexec
  | body f =>
    left
    obtain rfl := Option.some.inj hexec
    rwa [Processor.cpl, hbody _ _ _ hcode]
  | _ =>
    left
    obtain rfl := Option.some.inj hexec
    exact hring

theorem Assembled.goes_user (hm : Assembled m sym)
    (hbody : ∀ a f b, m.code a = some (.body f, b) → ∀ s, (f s).cs = s.cs) (hring : p.cpl ≠ 0)
    (hgoes : m.Goes p q) : q.cpl ≠ 0 ∨ EntersKernel m sym p q := by
  cases hgoes with
  | runs hstep => exact hm.step_user hbody hring hstep
  | device irq hirq hint =>
    right
    have hvector : irqVector irq < numVec := (irqVector_bounds hirq).2.trans (by decide)
    rw [Board.interrupt, hm.gate_eq hvector] at hint
    split_ifs at hint with hif
    obtain rfl := Option.some.inj hint
    exact .device hirq hif
  | exception n back code hn hexc =>
    right
    rw [Board.exception, hm.gate_eq (hn.trans (by decide))] at hexc
    obtain rfl := Option.some.inj hexc
    exact .exception back code hn

/-- Whatever a user program does, and whatever comes upon it, it stays in its ring until it enters
the kernel through a gate of the interrupt table: by `int $0x80` through that of the system calls,
by a device or an exception through that of its vector. -/
theorem enters_by_table (hm : Assembled m sym)
    (hbody : ∀ a f b, m.code a = some (.body f, b) → ∀ s, (f s).cs = s.cs) (hring : p.cpl ≠ 0)
    (hreach : ReflTransGen m.Goes p q) (hkernel : q.cpl = 0) :
    ∃ s e, ReflTransGen (fun a b ↦ m.Goes a b ∧ b.cpl ≠ 0) p s ∧ EntersKernel m sym s e ∧
      ReflTransGen m.Goes e q := by
  induction hreach using ReflTransGen.head_induction_on with
  | refl => exact absurd hkernel hring
  | @head a b hgoes hrest ih =>
    rcases hm.goes_user hbody hring hgoes with hstays | henters
    · obtain ⟨s, e, hreach, hrest⟩ := ih hstays
      exact ⟨s, e, .head ⟨hgoes, hstays⟩ hreach, hrest⟩
    · exact ⟨a, b, .refl, henters, hrest⟩

section Sample

theorem sample_bodies {a b : UInt32} {f : Processor → Processor}
    (h : sampleBoard.code a = some (.body f, b)) (s : Processor) : (f s).cs = s.cs := by
  obtain ⟨i, hi, he⟩ := Option.map_eq_some_iff.mp h
  obtain ⟨rfl, -⟩ := Prod.mk.inj he
  have hmem : .body f ∈ sampleCode := List.mem_of_getElem? hi
  rcases List.mem_append.mp hmem with hasm | hlast
  · have hnone : sampleListings.all (fun i ↦ !i.isBody) = true := rfl
    have hnot := List.all_eq_true.mp hnone _ hasm
    cases hnot
  · simp only [List.mem_cons, Instr.body.injEq, reduceCtorEq, List.not_mem_nil, or_false] at hlast
    subst hlast
    rfl

theorem enters_by_table_sample : ∃ q r s e,
    sampleBoard.interrupt intKeyboard (sampleCaller 131 3) = some q ∧
    sampleBoard.exception 14 q.eip 0 q = some r ∧
    r.eip = sampleSymbols.handler .exPageFault ∧
    ReflTransGen (fun a b ↦ sampleBoard.Goes a b ∧ b.cpl ≠ 0) (sampleCaller 131 3) s ∧
    EntersKernel sampleBoard sampleSymbols s e ∧ ReflTransGen sampleBoard.Goes e r := by
  have hif : flag (sampleCaller 131 3).eflags ifFlag = true := rfl
  have hint : sampleBoard.interrupt intKeyboard (sampleCaller 131 3) = some
      ((sampleCaller 131 3).enter sampleBoard (vectorGate sampleSymbols intKeyboard) 131) := by
    rw [Board.interrupt, if_pos hif, sample_assembled.gate_eq (by decide)]
    rfl
  have hexc (q : Processor) : sampleBoard.exception 14 q.eip 0 q = some
      ((q.enter sampleBoard (vectorGate sampleSymbols 14) q.eip).push 0) := by
    rw [Board.exception, sample_assembled.gate_eq (by decide)]
    rfl
  have hreach : ReflTransGen sampleBoard.Goes (sampleCaller 131 3) _ :=
    .head (.device 1 (by decide) hint) (.single (.exception 14 _ 0 (by decide) (hexc _)))
  obtain ⟨s, e, huser, henters, hrest⟩ := enters_by_table sample_assembled
    (fun _ _ _ h ↦ sample_bodies h) (by decide) hreach (cpl_kernelCs rfl)
  exact ⟨_, _, s, e, hint, hexc _, rfl, huser, henters, hrest⟩

end Sample

end ApollOS
