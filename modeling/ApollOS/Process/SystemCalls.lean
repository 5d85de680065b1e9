import ApollOS.Hardware.Instructions
import ApollOS.Hardware.InterruptTable

namespace ApollOS

open Function Words WordStack

variable {m : Board} {sym : Symbols} {p q : Processor} {next back a b d : UInt32} {c : Syscall}
  {args saved : List UInt32} {n : ℕ}

section Dispatch

theorem Assembled.syscall_gate (hm : Assembled m sym) : gate (m.idt 0x80) = some
    { offset := sym.handler .handleSyscall
      selector := kernelCs
      dpl := 3
      trap := true } := by
  rw [hm.idt 0x80 (by decide), gate_initIdt (by decide)]
  rfl

def Processor.trapped (m : Board) (sym : Symbols) (p : Processor) (back : UInt32) : Processor :=
  p.enter m
    { offset := sym.handler .handleSyscall
      selector := kernelCs
      dpl := 3
      trap := true } back

theorem Assembled.step_int (hm : Assembled m sym)
    (hcode : m.code p.eip = some (.int 0x80, next)) :
    m.step p = some (p.trapped m sym next) := by
  have hgate : gate (m.idt (0x80 : UInt8).toNat) = _ := hm.syscall_gate
  rw [Board.step_eq hcode, Board.exec, hgate, Option.bind_some, if_pos cpl_le]
  rfl

def savedRegisters : List Register := [.ebx, .ecx, .edx, .ebp, .esi, .edi]

def argumentRegisters : List Register := [.edx, .ecx, .ebx]

def saving : List Operation :=
  savedRegisters.map .pushl ++ argumentRegisters.map .pushl ++ [.sti]

def restoring : List Operation :=
  [.cli, .addEsp 12] ++ savedRegisters.reverse.map .popl ++ [.popfl, .sti]

theorem exists_number_iff {v : UInt32} : (∃ c : Syscall, v = c.number) ↔
    ¬ v.toInt32 < (1 : UInt32).toInt32 ∧ ¬ (10 : UInt32).toInt32 < v.toInt32 := by
  constructor
  · rintro ⟨c, rfl⟩
    cases c <;> decide
  · rintro ⟨hlow, hhigh⟩
    rw [Int32.lt_iff_toInt_lt] at hlow hhigh
    have hone : (1 : UInt32).toInt32.toInt = 1 := rfl
    have hten : (10 : UInt32).toInt32.toInt = 10 := rfl
    rw [hone] at hlow
    rw [hten] at hhigh
    have hback : v = (Int32.ofInt v.toInt32.toInt).toUInt32 := by
      rw [Int32.ofInt_toInt]
      rfl
    generalize v.toInt32.toInt = z at hlow hhigh hback
    have hle : 1 ≤ z := by omega
    have hge : z ≤ 10 := by omega
    subst hback
    interval_cases z
    · exact ⟨.halt, by decide⟩
    · exact ⟨.execute, by decide⟩
    · exact ⟨.readFd, by decide⟩
    · exact ⟨.writeFd, by decide⟩
    · exact ⟨.openFd, by decide⟩
    · exact ⟨.closeFd, by decide⟩
    · exact ⟨.getargs, by decide⟩
    · exact ⟨.vidmap, by decide⟩
    · exact ⟨.setHandler, by decide⟩
    · exact ⟨.sigreturn, by decide⟩

theorem Assembled.table_number (hm : Assembled m sym) :
    m.text (sym.syscalls + 4 * c.number) = sym.function c := by
  have hlength : sym.syscallTable.length = 11 := rfl
  have hlt : c.number.toNat < sym.syscallTable.length := by
    rw [hlength]
    cases c <;> decide
  have htable := hm.table c.number.toNat hlt
  rw [Nat.toUInt32_eq, UInt32.ofNat_toNat] at htable
  rw [htable]
  cases c <;> rfl

/-- What lies below the arguments when the handler calls a function. -/
def Processor.kept (m : Board) (sym : Symbols) (p : Processor) (back : UInt32) : List UInt32 :=
  savedRegisters.reverse.map p.reg ++ (p.trapped m sym back).eflags :: p.frame back

def Processor.given (p : Processor) : List UInt32 := argumentRegisters.reverse.map p.reg

theorem execAll_saving : execAll saving p =
    { p with
      esp := lowered p.esp (p.given ++ savedRegisters.reverse.map p.reg)
      mem := pushed p.mem p.esp (p.given ++ savedRegisters.reverse.map p.reg)
      eflags := setFlag p.eflags ifFlag true } := by
  rw [saving, execAll_append, execAll_append, execAll_pushl, execAll_pushl, lowered_append,
    pushed_append]
  rfl

def Processor.checked (m : Board) (sym : Symbols) (p : Processor) (back w : UInt32) : Processor :=
  { (p.trapped m sym back).push (p.trapped m sym back).eflags with eflags := w }

theorem Assembled.checks (hm : Assembled m sym)
    (hcode : m.code p.eip = some (.int 0x80, next)) :
    ∃ a b, LiesAt m.code a (saving.map .plain ++ (.callTable sym.syscalls ::
        (restoring.map .plain ++ [.iret]))) b ∧
      ((∃ c : Syscall, p.reg .eax = c.number) →
        ∃ w, Reaches m p ((p.checked m sym next w).goto a)) ∧
      ((¬ ∃ c : Syscall, p.reg .eax = c.number) →
        ∃ w, Reaches m p ((p.checked m sym next w).goto sym.badSyscall)) := by
  obtain ⟨b, hlist⟩ := hm.handleSyscall
  have hsplit : sym.handleSyscall =
      [Operation.pushfl, .cmpl 1 .eax].map .plain ++ (.jl sym.badSyscall ::
        ([Operation.cmpl 10 .eax].map .plain ++ (.jg sym.badSyscall ::
          (saving.map .plain ++ (.callTable sym.syscalls ::
            (restoring.map .plain ++ [.iret])))))) := rfl
  rw [hsplit] at hlist
  obtain ⟨a₁, hblock₁, a₂, hjl, hlist⟩ := liesAt_append.mp hlist
  obtain ⟨a₃, hblock₂, a₄, hjg, hlist⟩ := liesAt_append.mp hlist
  have hring : (p.trapped m sym next).cpl = 0 := cpl_kernelCs rfl
  let p₁ := execAll [.pushfl, .cmpl 1 .eax] (p.trapped m sym next)
  let p₂ := execAll [.cmpl 10 .eax] (p₁.goto a₂)
  have hfirst : Reaches m p (p₁.goto a₁) :=
    .head (hm.step_int hcode) (.block hblock₁ fun _ _ _ ↦ hring)
  have hless := Board.step_jl (p := p₁.goto a₁) (x := p.reg .eax) (y := 1) hjl rfl
  have hsecond : Reaches m (p₁.goto a₂) (p₂.goto a₃) := .block hblock₂ fun _ _ _ ↦ hring
  have hgreater := Board.step_jg (p := p₂.goto a₃) (x := p.reg .eax) (y := 10) hjg rfl
  refine ⟨a₄, b, hlist, fun hc ↦ ⟨p₂.eflags, ?_⟩, fun hc ↦ ?_⟩
  · obtain ⟨hlow, hhigh⟩ := exists_number_iff.mp hc
    rw [if_neg hlow] at hless
    rw [if_neg hhigh] at hgreater
    exact hfirst.trans (.head hless (hsecond.trans (.head hgreater .refl)))
  · by_cases hlow : (p.reg .eax).toInt32 < (1 : UInt32).toInt32
    · rw [if_pos hlow] at hless
      exact ⟨p₁.eflags, hfirst.trans (.head hless .refl)⟩
    · have hhigh : (10 : UInt32).toInt32 < (p.reg .eax).toInt32 := by
        by_contra hnot
        exact hc (exists_number_iff.mpr ⟨hlow, hnot⟩)
      rw [if_neg hlow] at hless
      rw [if_pos hhigh] at hgreater
      exact ⟨p₂.eflags, hfirst.trans (.head hless (hsecond.trans (.head hgreater .refl)))⟩

/-- The number is a valid one: the handler calls the function that the number stands for. -/
theorem Assembled.reaches_function (hm : Assembled m sym)
    (hcode : m.code p.eip = some (.int 0x80, next)) (hc : p.reg .eax = c.number) :
    ∃ e after b, Reaches m p e ∧ LiesAt m.code after (restoring.map .plain ++ [.iret]) b ∧
      e.eip = sym.function c ∧ e.cs = kernelCs ∧ e.ss = (p.trapped m sym next).ss ∧
      e.reg = p.reg ∧ flag e.eflags ifFlag = true ∧
      e.esp = lowered (p.frameBase m) (after :: (p.given ++ p.kept m sym next)) ∧
      e.mem = pushed p.mem (p.frameBase m) (after :: (p.given ++ p.kept m sym next)) := by
  obtain ⟨a, b, hlist, hvalid, -⟩ := hm.checks hcode
  obtain ⟨w, hreach⟩ := hvalid ⟨c, hc⟩
  obtain ⟨a', hblock, after, hcall, hlist⟩ := liesAt_append.mp hlist
  let s : Processor := { p.trapped m sym next with
    eip := a'
    esp := lowered (p.frameBase m) (p.given ++ p.kept m sym next)
    mem := pushed p.mem (p.frameBase m) (p.given ++ p.kept m sym next)
    eflags := setFlag w ifFlag true }
  have hsaved : (execAll saving ((p.checked m sym next w).goto a)).goto a' = s := by
    rw [execAll_saving]
    simp only [s, Processor.kept, ← List.append_assoc, lowered_append, pushed_append]
    rfl
  have hring : (p.checked m sym next w).cpl = 0 := cpl_kernelCs rfl
  have hgo := Reaches.block (p := (p.checked m sym next w).goto a) hblock fun _ _ _ ↦ hring
  rw [hsaved] at hgo
  have hstep : m.step s = some ((s.push after).goto (sym.function c)) := by
    have hreg : s.reg .eax = c.number := hc
    rw [Board.step_eq hcall, Board.exec, hreg, hm.table_number]
  refine ⟨(s.push after).goto (sym.function c), after, b,
    hreach.trans (hgo.trans (.head hstep .refl)), hlist, ?_⟩
  simp only [Processor.goto_eip, Processor.goto_cs, Processor.goto_ss, Processor.goto_reg,
    Processor.goto_eflags, Processor.goto_esp, Processor.goto_mem, Processor.push_cs,
    Processor.push_ss, Processor.push_reg, Processor.push_eflags, Processor.push_esp,
    Processor.push_mem, s, flag_setFlag_self (n := ifFlag) (by decide), lowered, pushed, true_and,
    and_true]
  exact ⟨rfl, rfl⟩

theorem restored_registers : (fun r ↦ if r ∈ savedRegisters.reverse then p.reg r else q.reg r) =
    update p.reg .eax (q.reg .eax) := by
  funext r
  cases r <;> rfl

theorem execAll_restoring (hesp : q.esp = lowered (p.frameBase m) (p.given ++ p.kept m sym next))
    (h : Holds q.mem (q.esp + 12) (p.kept m sym next)) :
    ∃ w, execAll restoring q = { q with
      esp := lowered (p.frameBase m) (p.frame next)
      reg := update p.reg .eax (q.reg .eax)
      eflags := w } ∧ Holds q.mem (lowered (p.frameBase m) (p.frame next)) (p.frame next) := by
  let q₁ := execAll [.cli, .addEsp 12] q
  obtain ⟨sp, hpop, hsp, hwords⟩ := execAll_popl (p := q₁) h
  have hall : execAll restoring q =
      execAll [.popfl, .sti] (execAll (savedRegisters.reverse.map .popl) q₁) := by
    rw [restoring, execAll_append, execAll_append]
  have hreg : (fun r ↦ if r ∈ savedRegisters.reverse then p.reg r else q₁.reg r) =
    update p.reg .eax (q.reg .eax) := restored_registers
  have hframe : sp + 4 = lowered (p.frameBase m) (p.frame next) := by
    have hdown : q.esp = lowered (p.frameBase m) ((p.given ++ savedRegisters.reverse.map p.reg ++
        [(p.trapped m sym next).eflags]) ++ p.frame next) := by
      rw [hesp, Processor.kept]
      simp only [List.append_assoc, List.cons_append, List.nil_append]
    rw [lowered_append, lowered_eq (l := _ ++ [_])] at hdown
    have hforty : (4 * (p.given ++ savedRegisters.reverse.map p.reg ++
      [(p.trapped m sym next).eflags]).length).toUInt32 = 40 := rfl
    have htwelve : q₁.esp = q.esp + 12 := rfl
    have hpopped : (4 * savedRegisters.reverse.length).toUInt32 = 24 := rfl
    rw [hsp, htwelve, hpopped, hdown, hforty]
    grind
  rw [hreg] at hpop
  rw [hpop] at hall
  refine ⟨setFlag (load q.mem sp) ifFlag true, hall.trans ?_, ?_⟩
  · rw [← hframe]
    rfl
  · rw [← hframe]
    exact hwords.2

theorem comes_back (hcode : LiesAt m.code q.eip (restoring.map .plain ++ [.iret]) b)
    (hcs : q.cs = kernelCs) (hss : q.ss = (p.trapped m sym next).ss)
    (hesp : q.esp = lowered (p.frameBase m) (p.given ++ p.kept m sym next))
    (h : Holds q.mem (q.esp + 12) (p.kept m sym next)) :
    Reaches m q { p with
      eip := next
      reg := update p.reg .eax (q.reg .eax)
      mem := q.mem } := by
  obtain ⟨c, hblock, d, hiret, -⟩ := liesAt_append.mp hcode
  have hring : q.cpl = 0 := cpl_kernelCs hcs
  have hfirst : Reaches m q ((execAll restoring q).goto c) := .block hblock fun _ _ _ ↦ hring
  obtain ⟨w, hexec, hframe⟩ := execAll_restoring hesp h
  rw [hexec] at hfirst
  refine hfirst.trans (.head ?_ .refl)
  rw [Board.step_eq hiret, Board.exec]
  refine (if_pos hring).trans (congrArg some ?_)
  refine (iret_frame m p next ?_ rfl hframe).trans rfl
  intro hzero
  exact hss.trans (if_pos hzero)

theorem Assembled.bad_syscall (hm : Assembled m sym) (heip : q.eip = sym.badSyscall)
    (hcs : q.cs = kernelCs) (hss : q.ss = (p.trapped m sym next).ss) (hreg : q.reg = p.reg)
    (hesp : q.esp = lowered (p.frameBase m) (d :: p.frame next))
    (h : Holds q.mem q.esp (d :: p.frame next)) :
    Reaches m q { p with
      eip := next
      reg := update p.reg .eax (-1)
      mem := q.mem } := by
  obtain ⟨b, hcode⟩ := hm.badSyscall
  have hsplit : Symbols.badSyscallCode =
      [Operation.popfl, .movImm (-1) .eax, .sti].map .plain ++ [.iret] := rfl
  rw [hsplit, ← heip] at hcode
  obtain ⟨c, hblock, e, hiret, -⟩ := liesAt_append.mp hcode
  have hring : q.cpl = 0 := cpl_kernelCs hcs
  have hdown : q.esp + 4 = lowered (p.frameBase m) (p.frame next) := by
    rw [hesp, lowered]
    exact UInt32.sub_add_cancel _ _
  refine (Reaches.block hblock fun _ _ _ ↦ hring).trans (.head ?_ .refl)
  rw [Board.step_eq hiret, Board.exec, ← hreg]
  refine (if_pos hring).trans (congrArg some ?_)
  refine (iret_frame m p next ?_ hdown ?_).trans rfl
  · intro hzero
    exact hss.trans (if_pos hzero)
  · exact h.2

theorem Assembled.refuses (hm : Assembled m sym)
    (hcode : m.code p.eip = some (.int 0x80, next)) (hc : ∀ c : Syscall, p.reg .eax ≠ c.number) :
    Reaches m p { p with
      eip := next
      reg := update p.reg .eax (-1)
      mem := pushed p.mem (p.frameBase m) ((p.trapped m sym next).eflags :: p.frame next) } := by
  obtain ⟨-, -, -, -, hinvalid⟩ := hm.checks hcode
  obtain ⟨w, hreach⟩ := hinvalid fun ⟨c, hnumber⟩ ↦ hc c hnumber
  have hfits : Fits ((p.trapped m sym next).eflags :: p.frame next) := by
    have hframe := @length_frame_le p next
    unfold WordStack.Fits
    rw [List.length_cons]
    omega
  exact hreach.trans (hm.bad_syscall rfl rfl rfl rfl rfl (.of_pushed _ _ hfits))

end Dispatch

section Calls

variable {x y z : UInt32}

theorem length_frame (hring : p.cpl ≠ 0) : (p.frame back).length = 5 := by
  rw [Processor.frame, if_neg hring]
  rfl

/-- On the way to the function sixteen words are left on the stack; it finds its arguments and what
the handler has saved, and if it returns, the program goes on. -/
theorem Assembled.calls_function (hm : Assembled m sym) (hring : p.cpl ≠ 0)
    (hcode : m.code p.eip = some (.int 0x80, next)) (hc : p.reg .eax = c.number) :
    ∃ e words, Reaches m p e ∧
      Enters e (sym.function c) [p.reg .ebx, p.reg .ecx, p.reg .edx] (p.kept m sym next) ∧
      flag e.eflags ifFlag = true ∧ e.esp = m.esp0 - 64 ∧ words.length = 16 ∧
      e.mem = pushed p.mem m.esp0 words ∧
      ∀ q, Returns e q [p.reg .ebx, p.reg .ecx, p.reg .edx] (p.kept m sym next) →
        Holds q.mem (m.esp0 - 48) (p.kept m sym next) ∧
        Reaches m q { p with
          eip := next
          reg := update p.reg .eax (q.reg .eax)
          mem := q.mem } := by
  have hbase : p.frameBase m = m.esp0 := if_neg hring
  obtain ⟨e, after, b, hreach, hlist, heip, hcs, hss, -, hflag, hesp, hmem⟩ :=
    hm.reaches_function hcode hc
  have hlength : (after :: (p.given ++ p.kept m sym next)).length = 16 := by
    rw [List.length_cons, List.length_append, Processor.kept, List.length_append,
      List.length_cons, length_frame hring]
    rfl
  have hfits : Fits (after :: (p.given ++ p.kept m sym next)) := by
    unfold WordStack.Fits
    omega
  have hholds : Holds e.mem e.esp (after :: (p.given ++ p.kept m sym next)) := by
    rw [hmem, hesp]
    exact .of_pushed _ _ hfits
  have hdown : e.esp = m.esp0 - 64 := by
    rw [hesp, lowered_eq, hlength, hbase]
    rfl
  refine ⟨e, _, hreach, ⟨heip, cpl_kernelCs hcs, hholds.2⟩, hflag, hdown, hlength, hbase ▸ hmem,
    fun q hq ↦ ⟨?_, ?_⟩⟩
  · have hup : q.esp + 12 = m.esp0 - 48 := by
      rw [hq.esp, hdown]
      grind
    have hsaved := hq.saved
    rwa [show (4 * [p.reg .ebx, p.reg .ecx, p.reg .edx].length).toUInt32 = 12 from rfl, hup]
      at hsaved
  · have hafter : q.eip = after := hq.eip.trans hholds.1
    have hup : q.esp = lowered (p.frameBase m) (p.given ++ p.kept m sym next) := by
      rw [hq.esp, hesp, lowered]
      exact UInt32.sub_add_cancel _ _
    exact comes_back (hafter ▸ hlist) (hq.cs.trans hcs) (hq.ss.trans hss) hup hq.saved

/-- What a user program gets from `int $0x80`. With a valid number in `%eax` it gets the function
of that number, called with `%ebx`, `%ecx` and `%edx`, while interrupts are let in; whatever the
function does, the program goes on with all its registers, its flags and its stack as they were,
but for the result in `%eax`. With any other number it gets `-1`. -/
theorem system_call (hm : Assembled m sym) (hring : p.cpl ≠ 0)
    (hcode : m.code p.eip = some (.int 0x80, next)) :
    (∀ c : Syscall, p.reg .eax = c.number →
      ∃ e saved, Reaches m p e ∧
        Enters e (sym.function c) [p.reg .ebx, p.reg .ecx, p.reg .edx] saved ∧
        flag e.eflags ifFlag = true ∧ (∀ a ∉ span (m.esp0 - 64) 64, e.mem a = p.mem a) ∧
        ∀ q, Returns e q [p.reg .ebx, p.reg .ecx, p.reg .edx] saved →
          Reaches m q { p with
            eip := next
            reg := update p.reg .eax (q.reg .eax)
            mem := q.mem }) ∧
    ((∀ c : Syscall, p.reg .eax ≠ c.number) →
      ∃ mem, (∀ a ∉ span (m.esp0 - 24) 24, mem a = p.mem a) ∧ Reaches m p { p with
        eip := next
        reg := update p.reg .eax (-1)
        mem := mem }) := by
  have hbase : p.frameBase m = m.esp0 := if_neg hring
  constructor
  · intro c hc
    obtain ⟨e, words, hreach, henters, hflag, -, hlength, hmem, hback⟩ :=
      hm.calls_function hring hcode hc
    refine ⟨e, p.kept m sym next, hreach, henters, hflag, fun a ha ↦ ?_,
      fun q hq ↦ (hback q hq).2⟩
    rw [hmem]
    refine pushed_frame ?_ ?_
    · unfold WordStack.Fits
      omega
    · rw [lowered_eq, hlength]
      exact ha
  · intro hc
    refine ⟨_, fun a ha ↦ ?_, hm.refuses hcode hc⟩
    refine pushed_frame ?_ ?_
    · unfold WordStack.Fits
      rw [List.length_cons, length_frame hring]
      omega
    · rw [lowered_eq, List.length_cons, length_frame hring, hbase]
      exact ha

theorem system_call_sample : ∃ e q, Reaches sampleBoard (sampleCaller 131 3) e ∧
    e.eip = sampleSymbols.function .readFd ∧ Reaches sampleBoard (sampleCaller 131 11) q ∧
    q.reg .eax = -1 := by
  obtain ⟨e, saved, hreach, henters, -⟩ :=
    (system_call (p := sampleCaller 131 3) sample_assembled (by decide) rfl).1 .readFd rfl
  obtain ⟨mem, -, hrefused⟩ :=
    (system_call (p := sampleCaller 131 11) sample_assembled (by decide) rfl).2
      fun c ↦ by cases c <;> decide
  exact ⟨e, _, hreach, henters.eip, hrefused, rfl⟩

def wrapped (c : Syscall) : List Operation :=
  [.pushl .ebx, .movImm c.number .eax, .movStack 8 .ebx, .movStack 12 .ecx, .movStack 16 .edx]

theorem execAll_wrapped (h : Holds p.mem p.esp [back, x, y, z]) :
    execAll (wrapped c) p = { p.push (p.reg .ebx) with
      reg := update (update (update (update p.reg .eax c.number) .ebx x) .ecx y) .edx z } := by
  have hfits : Fits ([p.reg .ebx] ++ [back, x, y, z]) := by
    unfold WordStack.Fits
    simp only [List.length_append, List.length_cons, List.length_nil]
    omega
  obtain ⟨-, -, hx, hy, hz, -⟩ := h.pushed hfits
  have h8 : lowered p.esp [p.reg .ebx] + 4 + 4 = p.esp - 4 + 8 := by
    simp only [lowered]
    grind
  have h12 : lowered p.esp [p.reg .ebx] + 4 + 4 + 4 = p.esp - 4 + 12 := by
    simp only [lowered]
    grind
  have h16 : lowered p.esp [p.reg .ebx] + 4 + 4 + 4 + 4 = p.esp - 4 + 16 := by
    simp only [lowered]
    grind
  rw [h8] at hx
  rw [h12] at hy
  rw [h16] at hz
  rw [← hx, ← hy, ← hz]
  rfl

/-- A call of a wrapper of the user library reaches the kernel's function of the same name with
the three words that lie behind the return address, and comes back to the caller with the
function's result; of the registers only `%ecx` and `%edx` are lost. -/
theorem library_call (hm : Assembled m sym) (hring : p.cpl ≠ 0) (heip : p.eip = sym.wrapper c)
    (hstack : Holds p.mem p.esp [back, x, y, z]) :
    ∃ e saved, Reaches m p e ∧ Enters e (sym.function c) [x, y, z] saved ∧
      flag e.eflags ifFlag = true ∧
      ∀ q, Returns e q [x, y, z] saved → Holds q.mem (p.esp - 4) [p.reg .ebx, back] →
        Reaches m q { p with
          eip := back
          esp := p.esp + 4
          reg := update (update (update p.reg .eax (q.reg .eax)) .ecx y) .edx z
          mem := q.mem } := by
  obtain ⟨b, hlist⟩ := hm.wrapper c
  have hsplit : Symbols.doCall c.number =
      (wrapped c).map .plain ++ (.int 0x80 :: ([Operation.popl .ebx].map .plain ++ [.ret])) := rfl
  rw [hsplit, ← heip] at hlist
  obtain ⟨a, hblock, next, hint, hlist⟩ := liesAt_append.mp hlist
  obtain ⟨a', hpop, b', hret, -⟩ := liesAt_append.mp hlist
  have hfirst : Reaches m p ((execAll (wrapped c) p).goto a) := by
    refine .block hblock fun op hop hpriv ↦ ?_
    simp only [wrapped, List.mem_cons, List.not_mem_nil, or_false] at hop
    rcases hop with rfl | rfl | rfl | rfl | rfl <;> cases hpriv
  rw [execAll_wrapped hstack] at hfirst
  let s : Processor := { p.push (p.reg .ebx) with
    eip := a
    reg := update (update (update (update p.reg .eax c.number) .ebx x) .ecx y) .edx z }
  have hs : m.code s.eip = some (.int 0x80, next) := hint
  have hring' : s.cpl ≠ 0 := hring
  obtain ⟨e, saved, hreach, henters, hflag, -, hback⟩ := (system_call hm hring' hs).1 c rfl
  refine ⟨e, saved, hfirst.trans hreach, henters, hflag, fun q hq hframe ↦ ?_⟩
  obtain ⟨hebx, hret', -⟩ := hframe
  have hup : p.esp - 4 + 4 = p.esp := UInt32.sub_add_cancel _ _
  let t : Processor := { s with
    eip := next
    reg := update s.reg .eax (q.reg .eax)
    mem := q.mem }
  have hregs : update t.reg .ebx (load q.mem (p.esp - 4)) =
      update (update (update p.reg .eax (q.reg .eax)) .ecx y) .edx z := by
    rw [hebx]
    funext r
    cases r <;> rfl
  have hlast : Reaches m t ((execAll [.popl .ebx] t).goto a') :=
    .block hpop fun op hop hpriv ↦ by
      rw [List.mem_singleton] at hop
      subst hop
      cases hpriv
  have hpopped : (execAll [.popl .ebx] t).goto a' = { p with
      eip := a'
      esp := p.esp - 4 + 4
      reg := update (update (update p.reg .eax (q.reg .eax)) .ecx y) .edx z
      mem := q.mem } := by
    rw [← hregs]
    rfl
  rw [hpopped] at hlast
  refine (hback q hq).trans (hlast.trans (.head ?_ .refl))
  rw [Board.step_eq hret, Board.exec, Processor.top]
  dsimp only [Processor.skip, Processor.goto]
  rw [hret', hup]

theorem library_call_sample : ∃ e, Reaches sampleBoard (sampleCaller 69 0) e ∧
    e.eip = sampleSymbols.function .writeFd := by
  have hzero (a : UInt32) : load (fun _ ↦ 0) a = 0 := by
    rw [load]
    rfl
  have hstack : Holds (sampleCaller 69 0).mem (sampleCaller 69 0).esp [0, 0, 0, 0] :=
    ⟨hzero _, hzero _, hzero _, hzero _, trivial⟩
  obtain ⟨e, saved, hreach, henters, -⟩ := library_call (c := .writeFd) (p := sampleCaller 69 0)
    sample_assembled (by decide) rfl hstack
  exact ⟨e, hreach, henters.eip⟩

/-- A program starts with `main`, and what `main` returns is what `halt` is called with. -/
theorem program_start {f : Processor → Processor} {last : UInt32} (hm : Assembled m sym)
    (hring : p.cpl ≠ 0) (heip : p.eip = sym.start) (hmain : m.code sym.main = some (.body f, last))
    (hf : ∀ s, s.eip = sym.main → (f s).eip = s.top ∧ (f s).esp = s.esp + 4 ∧ (f s).cs = s.cs) :
    ∃ a e saved, Reaches m p e ∧ Enters e (sym.function .halt)
      [(f ((p.push a).goto sym.main)).reg .eax, 0, 0] saved := by
  obtain ⟨b, a, hcall, hlist⟩ := hm.start
  have hsplit : [Instr.plain (.pushImm 0), .plain (.pushImm 0), .plain (.pushl .eax),
      .call (sym.wrapper .halt)] =
      [Operation.pushImm 0, .pushImm 0, .pushl .eax].map .plain ++
        [.call (sym.wrapper .halt)] := rfl
  rw [hsplit] at hlist
  obtain ⟨a', hblock, next, hhalt, -⟩ := liesAt_append.mp hlist
  let s := (p.push a).goto sym.main
  obtain ⟨hback, hesp, hcs⟩ := hf s rfl
  have hreturn : (f s).eip = a := hback.trans load_store
  have hmain' : m.step s = some (f s) := by
    rw [Board.step_eq hmain, Board.exec]
  let t := execAll [.pushImm 0, .pushImm 0, .pushl .eax] (f s)
  have hpushes : Reaches m (f s) (t.goto a') := by
    rw [← hreturn] at hblock
    refine .block hblock fun op hop hpriv ↦ ?_
    simp only [List.mem_cons, List.not_mem_nil, or_false] at hop
    rcases hop with rfl | rfl | rfl <;> cases hpriv
  let u := (t.push next).goto (sym.wrapper .halt)
  have hstack : Holds u.mem u.esp [next, (f s).reg .eax, 0, 0] := by
    have hfits : Fits [next, (f s).reg .eax, 0, 0] := by
      unfold WordStack.Fits
      simp only [List.length_cons, List.length_nil]
      omega
    have hpushed := Holds.of_pushed (f s).mem (f s).esp hfits
    exact hpushed
  have hring' : u.cpl ≠ 0 := by
    have hsame : u.cs = p.cs := hcs
    rwa [Processor.cpl, hsame]
  obtain ⟨e, saved, hreach, henters, -⟩ := library_call hm hring' rfl hstack
  refine ⟨a, e, saved, ?_, henters⟩
  have hstart : m.step p = some s := Board.step_call (by rw [heip]; exact hcall)
  have hlast : m.step (t.goto a') = some u := by
    rw [Board.step_call (p := t.goto a') hhalt]
    rfl
  exact .head hstart (.head hmain' (hpushes.trans (.head hlast hreach)))

theorem program_start_sample : ∃ e, Reaches sampleBoard (sampleCaller 125 0) e ∧
    e.eip = sampleSymbols.function .halt ∧ load e.mem (e.esp + 4) = 7 := by
  obtain ⟨a, e, saved, hreach, henters⟩ := program_start (p := sampleCaller 125 0) sample_assembled
    (by decide) rfl rfl fun _ _ ↦ ⟨rfl, rfl, rfl⟩
  exact ⟨e, hreach, henters.eip, henters.stack.1⟩

end Calls

end ApollOS
