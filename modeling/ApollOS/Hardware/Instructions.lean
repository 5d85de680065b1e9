import ApollOS.Kernel.Assembly
import Mathlib.Logic.Relation
import Mathlib.Data.List.Induction
import Mathlib.Tactic.IntervalCases

namespace ApollOS

open Function Words WordStack

variable {m : Board} {p q r : Processor} {ops : List Operation} {l l' : List Instr}
  {code : UInt32 → Option (Instr × UInt32)} {a b next t : UInt32} {w x y : UInt32} {n k : ℕ}
  {f : Bool}

/-- The processor comes from one state to another. -/
def Reaches (m : Board) : Processor → Processor → Prop :=
  Relation.ReflTransGen fun p q ↦ m.step p = some q

namespace Reaches

theorem refl : Reaches m p p := Relation.ReflTransGen.refl

theorem trans (h : Reaches m p q) (h' : Reaches m q r) : Reaches m p r :=
  Relation.ReflTransGen.trans h h'

theorem head (h : m.step p = some q) (h' : Reaches m q r) : Reaches m p r :=
  Relation.ReflTransGen.head h h'

end Reaches

theorem liesAt_append :
    LiesAt code a (l ++ l') b ↔ ∃ c, LiesAt code a l c ∧ LiesAt code c l' b := by
  induction l generalizing a with
  | nil => simp [LiesAt]
  | cons i l ih =>
    simp only [List.cons_append, LiesAt, ih]
    constructor
    · rintro ⟨next, hi, c, hl, hl'⟩
      exact ⟨c, ⟨next, hi, hl⟩, hl'⟩
    · rintro ⟨c, ⟨next, hi, hl⟩, hl'⟩
      exact ⟨next, hi, c, hl, hl'⟩

theorem Board.step_eq {i : Instr} (h : m.code p.eip = some (i, next)) :
    m.step p = m.exec next p i := by
  rw [step, h, Option.bind_some]

theorem Board.step_call {f : UInt32} (h : m.code p.eip = some (.call f, next)) :
    m.step p = some ((p.push next).goto f) := by
  rw [Board.step_eq h, Board.exec]

/-- What a block of instructions without jumps does, apart from going on to its end. -/
def execAll (ops : List Operation) (p : Processor) : Processor := ops.foldl Operation.exec p

theorem Operation.exec_cpl (op : Operation) : (op.exec p).cpl = p.cpl := by
  cases op <;> rfl

namespace Processor

@[simp] theorem goto_reg : (p.goto a).reg = p.reg := rfl

@[simp] theorem goto_eip : (p.goto a).eip = a := rfl

@[simp] theorem goto_cs : (p.goto a).cs = p.cs := rfl

@[simp] theorem goto_ss : (p.goto a).ss = p.ss := rfl

@[simp] theorem goto_esp : (p.goto a).esp = p.esp := rfl

@[simp] theorem goto_eflags : (p.goto a).eflags = p.eflags := rfl

@[simp] theorem goto_mem : (p.goto a).mem = p.mem := rfl

@[simp] theorem goto_top : (p.goto a).top = p.top := rfl

@[simp] theorem push_reg {v : UInt32} : (p.push v).reg = p.reg := rfl

@[simp] theorem push_cs {v : UInt32} : (p.push v).cs = p.cs := rfl

@[simp] theorem push_ss {v : UInt32} : (p.push v).ss = p.ss := rfl

@[simp] theorem push_eflags {v : UInt32} : (p.push v).eflags = p.eflags := rfl

@[simp] theorem push_esp {v : UInt32} : (p.push v).esp = p.esp - 4 := rfl

@[simp] theorem push_mem {v : UInt32} : (p.push v).mem = store p.mem (p.esp - 4) v := rfl

@[simp] theorem goto_goto : (p.goto a).goto b = p.goto b := rfl

@[simp] theorem goto_push {v : UInt32} : (p.goto a).push v = (p.push v).goto a := rfl

@[simp] theorem goto_skip : (p.goto a).skip = p.skip.goto a := rfl

@[simp] theorem goto_pop {r : Register} : (p.goto a).pop r = (p.pop r).goto a := rfl

end Processor

theorem Operation.exec_goto (op : Operation) : op.exec (p.goto a) = (op.exec p).goto a := by
  cases op with
  | pushal => simp only [exec, Processor.goto_push, Processor.goto_reg, Processor.goto_esp]
  | popal => simp only [exec, Processor.goto_pop, Processor.goto_skip]
  | _ => rfl

theorem execAll_goto : execAll ops (p.goto a) = (execAll ops p).goto a := by
  induction ops generalizing p with
  | nil => rfl
  | cons op ops ih =>
    rw [execAll, List.foldl_cons, op.exec_goto]
    exact ih

theorem Reaches.block (h : LiesAt m.code p.eip (ops.map .plain) b)
    (hring : ∀ op ∈ ops, op.privileged = true → p.cpl = 0) :
    Reaches m p ((execAll ops p).goto b) := by
  induction ops generalizing p with
  | nil =>
    have heip : p.eip = b := h
    subst heip
    exact .refl
  | cons op ops ih =>
    obtain ⟨next, hcode, hrest⟩ := h
    have hallowed : ¬(op.privileged = true ∧ p.cpl ≠ 0) := by
      rintro ⟨hp, hne⟩
      exact hne (hring op List.mem_cons_self hp)
    have hstep : m.step p = some ((op.exec p).goto next) := by
      rw [Board.step_eq hcode, Board.exec, if_neg hallowed]
    have hgo := ih (p := (op.exec p).goto next) hrest fun o ho hp ↦
      op.exec_cpl.trans (hring o (List.mem_cons_of_mem op ho) hp)
    rw [execAll_goto] at hgo
    exact .head hstep hgo

section Stack

variable {rs : List Register} {v : Register → UInt32} {words : List UInt32}

theorem execAll_append {ops' : List Operation} :
    execAll (ops ++ ops') p = execAll ops' (execAll ops p) :=
  List.foldl_append

/-- Registers are pushed one after the other. -/
theorem execAll_pushl : execAll (rs.map .pushl) p =
    { p with
      esp := lowered p.esp (rs.reverse.map p.reg)
      mem := pushed p.mem p.esp (rs.reverse.map p.reg) } := by
  induction rs using List.reverseRecOn with
  | nil => rfl
  | append_singleton rs r ih =>
    rw [List.map_append, execAll_append, ih, List.reverse_append]
    rfl

/-- Registers are popped one after the other, each getting its own value back. -/
theorem execAll_popl (h : Holds p.mem p.esp (rs.map v ++ words)) :
    ∃ sp, execAll (rs.map .popl) p =
        { p with esp := sp, reg := fun r ↦ if r ∈ rs then v r else p.reg r } ∧
      sp = p.esp + (4 * rs.length).toUInt32 ∧ Holds p.mem sp words := by
  induction rs generalizing p with
  | nil => exact ⟨p.esp, rfl, by simp, h⟩
  | cons r rs ih =>
    obtain ⟨htop, hrest⟩ := h
    obtain ⟨sp, hexec, hsp, hwords⟩ := ih (p := p.pop r) hrest
    refine ⟨sp, ?_, ?_, hwords⟩
    · rw [List.map_cons, execAll, List.foldl_cons]
      refine hexec.trans ?_
      have hreg : (fun s ↦ if s ∈ rs then v s else (p.pop r).reg s) =
          fun s ↦ if s ∈ r :: rs then v s else p.reg s := by
        funext s
        by_cases hs : s ∈ rs
        · simp [hs]
        · by_cases hr : s = r
          · subst hr
            simp [hs, Processor.pop, Processor.top, htop]
          · simp [hs, hr, Processor.pop]
      rw [hreg]
      rfl
    · have hpop : (p.pop r).esp = p.esp + 4 := rfl
      rw [hsp, hpop, List.length_cons, add_words]

end Stack

section Flags

theorem flag_setFlag (hn : n < 32) : flag (setFlag w n f) k = if k = n then f else flag w k := by
  cases f with
  | true =>
    simp only [flag, setFlag, if_true, BitVec.getLsbD_or, BitVec.getLsbD_shiftLeft,
      BitVec.getLsbD_one]
    by_cases hk : k = n
    · subst hk
      simp [hn]
    · have hne : k < n ∨ k - n ≠ 0 := by omega
      rcases hne with hlt | hne
      · simp [hk, hlt]
      · simp [hk, hne]
  | false =>
    simp only [flag, setFlag, Bool.false_eq_true, if_false, BitVec.getLsbD_and, BitVec.getLsbD_not,
      BitVec.getLsbD_shiftLeft, BitVec.getLsbD_one]
    by_cases hk : k = n
    · subst hk
      simp [hn]
    · have hne : k < n ∨ k - n ≠ 0 := by omega
      have hbit : w.toBitVec.getLsbD k = true → k < 32 := BitVec.lt_of_getLsbD
      rcases hne with hlt | hne
      · simpa [hk, hlt] using hbit
      · simpa [hk, hne] using hbit

theorem flag_setFlag_self (hn : n < 32) : flag (setFlag w n f) n = f := by
  rw [flag_setFlag hn, if_pos rfl]

theorem flag_entryFlags : flag (entryFlags w false) ifFlag = false := by
  rw [entryFlags, if_neg Bool.false_ne_true, flag_setFlag_self (by decide)]

theorem compare_sf : flag (compareFlags w x y) sfFlag = (x - y).toBitVec.msb := by
  simp only [compareFlags, resultFlags, flag_setFlag (n := ofFlag) (by decide),
    flag_setFlag (n := sfFlag) (by decide)]
  rfl

theorem compare_zf : flag (compareFlags w x y) zfFlag = (x - y == 0) := by
  simp only [compareFlags, resultFlags, flag_setFlag (n := ofFlag) (by decide),
    flag_setFlag (n := sfFlag) (by decide), flag_setFlag (n := zfFlag) (by decide)]
  rfl

theorem compare_of :
    flag (compareFlags w x y) ofFlag = x.toBitVec.ssubOverflow y.toBitVec := by
  simp only [compareFlags, resultFlags, flag_setFlag (n := ofFlag) (by decide)]
  rfl

/-- The jump for less is taken when the first number is less than the second, both with signs. -/
theorem less_iff : flag (compareFlags w x y) sfFlag ≠ flag (compareFlags w x y) ofFlag ↔
    x.toInt32 < y.toInt32 := by
  have hmsb : (x - y).toBitVec.msb = true ↔
      (x.toInt32.toInt - y.toInt32.toInt).bmod (2 ^ 32) < 0 := by
    rw [BitVec.msb_eq_toInt, decide_eq_true_iff, UInt32.toBitVec_sub, BitVec.toInt_sub]
    rfl
  have hover : x.toBitVec.ssubOverflow y.toBitVec = true ↔
      x.toInt32.toInt - y.toInt32.toInt ≥ 2 ^ 31 ∨ x.toInt32.toInt - y.toInt32.toInt < -2 ^ 31 := by
    rw [BitVec.ssubOverflow, Bool.or_eq_true, decide_eq_true_iff, decide_eq_true_iff]
    rfl
  have hx := x.toInt32.toInt_lt
  have hx' := x.toInt32.le_toInt
  have hy := y.toInt32.toInt_lt
  have hy' := y.toInt32.le_toInt
  rw [compare_sf, compare_of, ne_eq, Bool.eq_iff_iff, hmsb, hover, Int32.lt_iff_toInt_lt,
    Int.bmod_def]
  omega

theorem greater_iff : (flag (compareFlags w x y) zfFlag = false ∧
    flag (compareFlags w x y) sfFlag = flag (compareFlags w x y) ofFlag) ↔
    y.toInt32 < x.toInt32 := by
  have hless := less_iff (w := w) (x := x) (y := y)
  rw [Int32.lt_iff_toInt_lt] at hless ⊢
  have hzero : flag (compareFlags w x y) zfFlag = false ↔ x.toInt32.toInt ≠ y.toInt32.toInt := by
    have hsub : x - y = 0 ↔ x = y := by
      constructor <;> intro h <;> grind
    have hsigned : x.toInt32 = y.toInt32 ↔ x = y :=
      ⟨fun h ↦ congrArg Int32.toUInt32 h, congrArg UInt32.toInt32⟩
    rw [compare_zf, beq_eq_false_iff_ne, ne_eq, ne_eq, hsub, Int32.toInt_inj, hsigned]
  rw [hzero, ← not_ne_iff (a := flag _ sfFlag), hless]
  omega

theorem Board.step_jl (h : m.code p.eip = some (.jl t, next))
    (hflags : p.eflags = compareFlags w x y) :
    m.step p = some (p.goto (if x.toInt32 < y.toInt32 then t else next)) := by
  rw [Board.step_eq h, Board.exec, hflags, if_congr less_iff rfl rfl]

theorem Board.step_jg (h : m.code p.eip = some (.jg t, next))
    (hflags : p.eflags = compareFlags w x y) :
    m.step p = some (p.goto (if y.toInt32 < x.toInt32 then t else next)) := by
  rw [Board.step_eq h, Board.exec, hflags, if_congr greater_iff rfl rfl]

end Flags

section Calling

variable {back : UInt32} {args saved : List UInt32}

/-- The processor stands at the entry of a C function of the kernel, which was called with these
arguments; what lies below them belongs to the caller. -/
structure Enters (e : Processor) (f : UInt32) (args saved : List UInt32) : Prop where
  eip : e.eip = f
  ring : e.cpl = 0
  stack : Holds e.mem (e.esp + 4) (args ++ saved)

/-- The function comes back to its caller; it may have changed its arguments, the registers and
the flags, but not what belongs to the caller. -/
structure Returns (e q : Processor) (args saved : List UInt32) : Prop where
  eip : q.eip = e.top
  esp : q.esp = e.esp + 4
  cs : q.cs = e.cs
  ss : q.ss = e.ss
  saved : Holds q.mem (q.esp + (4 * args.length).toUInt32) saved

theorem cpl_kernelCs (h : p.cs = kernelCs) : p.cpl = 0 := by
  rw [Processor.cpl, h]
  decide

theorem cpl_le : p.cpl ≤ 3 := by
  rw [Processor.cpl, Processor.ring, UInt16.toNat_and]
  exact Nat.and_le_right

section Frame

theorem length_frame_le : (p.frame back).length ≤ 5 := by
  rw [Processor.frame]
  split <;> simp only [List.length_cons, List.length_nil] <;> omega

/-- The way back from an interrupt restores everything that the frame tells. -/
theorem iret_frame (m : Board) (p : Processor) (back : UInt32) (hss : p.cpl = 0 → q.ss = p.ss)
    (hesp : q.esp = lowered (p.frameBase m) (p.frame back))
    (h : Holds q.mem q.esp (p.frame back)) :
    q.iret = { q with
      eip := back
      cs := p.cs
      eflags := p.eflags
      esp := p.esp
      ss := p.ss } := by
  obtain ⟨hback, hcs, hflags, hrest⟩ := h
  have hcs16 : (load q.mem (q.esp + 4)).toUInt16 = p.cs := by
    rw [hcs]
    exact UInt16.toUInt16_toUInt32 p.cs
  rw [Processor.iret, Processor.top, hback, hcs16, hflags]
  by_cases hring : p.cpl = 0
  · have hsp : q.esp + 4 + 4 + 4 = p.esp := by
      rw [hesp, Processor.frame, Processor.frameBase, if_pos hring, if_pos hring]
      simp only [lowered]
      grind
    have hzero : Processor.ring p.cs = 0 := hring
    rw [if_pos hzero, hsp, ← hss hring]
  · rw [if_neg hring] at hrest
    obtain ⟨hsp, hseg, -⟩ := hrest
    have hseg16 : (load q.mem (q.esp + 4 + 4 + 4 + 4)).toUInt16 = p.ss := by
      rw [hseg]
      exact UInt16.toUInt16_toUInt32 p.ss
    have hne : ¬ Processor.ring p.cs = 0 := hring
    rw [if_neg hne, Processor.top]
    dsimp only
    rw [hsp, hseg16]

end Frame

end Calling

section Sample

def Instr.isBody : Instr → Bool
  | .body _ => true
  | _ => false

/-- The code that the instructions of a list make up, one address for each. -/
def codeOf (listing : List Instr) (a : UInt32) : Option (Instr × UInt32) :=
  listing[a.toNat]?.map fun i ↦ (i, a + 1)

theorem liesAt_codeOf {listing rest : List Instr} (hlength : listing.length < 2 ^ 32)
    (h : listing.drop a.toNat = l ++ rest) :
    LiesAt (codeOf listing) a l (a + l.length.toUInt32) := by
  induction l generalizing a with
  | nil => exact (UInt32.add_zero a).symm
  | cons i l ih =>
    have hlt : a.toNat < listing.length := by
      by_contra hge
      rw [List.drop_eq_nil_of_le (Nat.le_of_not_lt hge)] at h
      cases h
    have hnext : (a + 1).toNat = a.toNat + 1 := by
      rw [UInt32.toNat_add]
      exact Nat.mod_eq_of_lt (by have : (1 : UInt32).toNat = 1 := rfl; omega)
    obtain ⟨hi, htail⟩ := List.cons.inj (List.drop_eq_getElem_cons hlt ▸ h)
    refine ⟨a + 1, ?_, ?_⟩
    · rw [codeOf, List.getElem?_eq_getElem hlt, hi]
      rfl
    · have hrest := ih (a := a + 1) (by rw [hnext]; exact htail)
      have hsum : a + 1 + l.length.toUInt32 = a + (i :: l).length.toUInt32 := by
        have hone : (1 : ℕ).toUInt32 = 1 := rfl
        rw [List.length_cons]
        simp only [Nat.toUInt32_eq, UInt32.ofNat_add] at hone ⊢
        rw [hone]
        grind
      rwa [hsum] at hrest

def sampleSymbols : Symbols where
  handler
    | .handleRtc => 31
    | .handleKeyboard => 38
    | .handleSyscall => 0
    | _ => 200
  badSyscall := 27
  syscalls := 1000
  function c := 300 + c.number
  rtcHandler := 320
  keyboardHandler := 330
  wrapper c := 37 + 8 * c.number
  start := 125
  main := 130

def sampleListings : List Instr :=
  sampleSymbols.handleSyscall ++ Symbols.badSyscallCode ++ sampleSymbols.handleRtc ++
    sampleSymbols.handleKeyboard ++
    ([Syscall.halt, .execute, .readFd, .writeFd, .openFd, .closeFd, .getargs, .vidmap,
      .setHandler, .sigreturn].flatMap fun c ↦ Symbols.doCall c.number) ++
    sampleSymbols.startCode

/-- The code of the kernel and of a program whose `main` returns 7, and a system call. -/
def sampleCode : List Instr :=
  sampleListings ++
    [.body fun s ↦ { s.skip with eip := s.top, reg := update s.reg .eax 7 }, .int 0x80]

def sampleBoard : Board where
  code := codeOf sampleCode
  text a := (sampleSymbols.syscallTable[((a - 1000) / 4).toNat]?).getD 0
  idt n := (initIdt sampleSymbols.handler (fun _ ↦ .zero) n).packed
  esp0 := 0x7FFFFC
  ss0 := kernelDs

theorem length_sampleCode : sampleCode.length < 2 ^ 32 := by
  have hlength : sampleCode.length = 132 := rfl
  omega

theorem sample_assembled : Assembled sampleBoard sampleSymbols where
  table := by
    intro i hi
    have hlength : sampleSymbols.syscallTable.length = 11 := rfl
    rw [hlength] at hi
    interval_cases i <;> rfl
  idt n _ := rfl
  handleRtc := ⟨_, liesAt_codeOf length_sampleCode rfl⟩
  handleKeyboard := ⟨_, liesAt_codeOf length_sampleCode rfl⟩
  handleSyscall := ⟨_, liesAt_codeOf length_sampleCode rfl⟩
  badSyscall := ⟨_, liesAt_codeOf length_sampleCode rfl⟩
  wrapper c := by cases c <;> exact ⟨_, liesAt_codeOf length_sampleCode rfl⟩
  start := ⟨_, liesAt_codeOf length_sampleCode rfl⟩

/-- A user program at an address, with a value in `%eax`, interrupts being let in. -/
def sampleCaller (eip eax : UInt32) : Processor where
  reg := update (fun _ ↦ 0) .eax eax
  esp := 0x83FFFFC
  eip := eip
  cs := userCs
  ss := userDs
  eflags := 0x200
  mem _ := 0

end Sample

end ApollOS
