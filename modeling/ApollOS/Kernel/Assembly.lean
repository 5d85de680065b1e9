import ApollOS.Foundation.WordStack
import ApollOS.Kernel.Idt

namespace ApollOS

open Function Words WordStack

inductive Register
  | eax
  | ecx
  | edx
  | ebx
  | ebp
  | esi
  | edi
  deriving DecidableEq

/-- What the assembly code of the kernel and of the user library works on. -/
structure Processor where
  reg : Register → UInt32
  esp : UInt32
  eip : UInt32
  cs : UInt16
  ss : UInt16
  eflags : UInt32
  mem : Bytes

def flag (w : UInt32) (n : ℕ) : Bool := w.toBitVec.getLsbD n

def setFlag (w : UInt32) (n : ℕ) (b : Bool) : UInt32 :=
  if b then ⟨w.toBitVec ||| 1#32 <<< n⟩ else ⟨w.toBitVec &&& ~~~(1#32 <<< n)⟩

def cfFlag : ℕ := 0
def pfFlag : ℕ := 2
def afFlag : ℕ := 4
def zfFlag : ℕ := 6
def sfFlag : ℕ := 7
def tfFlag : ℕ := 8
def ifFlag : ℕ := 9
def ofFlag : ℕ := 11
def ntFlag : ℕ := 14
def rfFlag : ℕ := 16
def vmFlag : ℕ := 17

/-- The flags that tell about a result. -/
def resultFlags (w r : UInt32) (carry adjust overflow : Bool) : UInt32 :=
  let w := setFlag w cfFlag carry
  let w := setFlag w pfFlag (((List.range 8).countP (flag r)) % 2 == 0)
  let w := setFlag w afFlag adjust
  let w := setFlag w zfFlag (r == 0)
  let w := setFlag w sfFlag r.toBitVec.msb
  setFlag w ofFlag overflow

def compareFlags (w x y : UInt32) : UInt32 :=
  resultFlags w (x - y) (x < y) (x &&& 0xF < y &&& 0xF) (x.toBitVec.ssubOverflow y.toBitVec)

def addFlags (w x y : UInt32) : UInt32 :=
  resultFlags w (x + y) (x + y < x) ((x &&& 0xF) + (y &&& 0xF) > 0xF)
    (x.toBitVec.saddOverflow y.toBitVec)

/-- What is left of the flags when an interrupt is entered through a gate. -/
def entryFlags (w : UInt32) (trap : Bool) : UInt32 :=
  let w := setFlag (setFlag (setFlag (setFlag w tfFlag false) ntFlag false) rfFlag false)
    vmFlag false
  if trap then w else setFlag w ifFlag false

namespace Processor

variable (p : Processor)

def ring (selector : UInt16) : ℕ := (selector &&& 3).toNat

def cpl : ℕ := ring p.cs

def goto (a : UInt32) : Processor := { p with eip := a }

def push (v : UInt32) : Processor :=
  { p with esp := p.esp - 4, mem := store p.mem (p.esp - 4) v }

def top : UInt32 := load p.mem p.esp

def skip : Processor := { p with esp := p.esp + 4 }

def pop (r : Register) : Processor := { p.skip with reg := update p.reg r p.top }

end Processor

/-- An instruction after which the next one follows. -/
inductive Operation
  | pushl (r : Register)
  | pushImm (v : UInt32)
  | popl (r : Register)
  | pushfl
  | popfl
  | pushal
  | popal
  | movImm (v : UInt32) (r : Register)
  | movStack (disp : UInt32) (r : Register)
  | cmpl (v : UInt32) (r : Register)
  | addEsp (v : UInt32)
  | sti
  | cli

namespace Operation

def exec (p : Processor) : Operation → Processor
  | pushl r => p.push (p.reg r)
  | pushImm v => p.push v
  | popl r => p.pop r
  | pushfl => p.push p.eflags
  | popfl => { p.skip with eflags := p.top }
  | pushal =>
    (((((((p.push (p.reg .eax)).push (p.reg .ecx)).push (p.reg .edx)).push (p.reg .ebx)).push
      p.esp).push (p.reg .ebp)).push (p.reg .esi)).push (p.reg .edi)
  | popal =>
    (((((((p.pop .edi).pop .esi).pop .ebp).skip).pop .ebx).pop .edx).pop .ecx).pop .eax
  | movImm v r => { p with reg := update p.reg r v }
  | movStack disp r => { p with reg := update p.reg r (load p.mem (p.esp + disp)) }
  | cmpl v r => { p with eflags := compareFlags p.eflags (p.reg r) v }
  | addEsp v => { p with esp := p.esp + v, eflags := addFlags p.eflags p.esp v }
  | sti => { p with eflags := setFlag p.eflags ifFlag true }
  | cli => { p with eflags := setFlag p.eflags ifFlag false }

/-- Only the kernel may do this. -/
def privileged : Operation → Bool
  | popfl | sti | cli => true
  | _ => false

end Operation

/-- The body of a C function is taken as a whole, from its entry to its return. -/
inductive Instr
  | plain (op : Operation)
  | jl (target : UInt32)
  | jg (target : UInt32)
  | call (target : UInt32)
  | callTable (table : UInt32)
  | int (vector : UInt8)
  | iret
  | ret
  | body (f : Processor → Processor)

/-- What does not change while the processor runs: the code, where every instruction stands with
the address of the one behind it, the words that stand between the code, the interrupt table, and
the kernel stack that the task state segment names. -/
structure Board where
  code : UInt32 → Option (Instr × UInt32)
  text : UInt32 → UInt32
  idt : ℕ → BitVec 64
  esp0 : UInt32
  ss0 : UInt16

namespace Processor

variable (m : Board) (p : Processor)

/-- What the processor pushes when it enters an interrupt: from the user's ring it changes to the
kernel's stack first. -/
def frame (back : UInt32) : List UInt32 :=
  back :: p.cs.toUInt32 :: p.eflags :: if p.cpl = 0 then [] else [p.esp, p.ss.toUInt32]

def frameBase : UInt32 := if p.cpl = 0 then p.esp else m.esp0

def enter (g : Gate) (back : UInt32) : Processor :=
  { p with
    esp := lowered (p.frameBase m) (p.frame back)
    eip := g.offset
    cs := g.selector
    ss := if p.cpl = 0 then p.ss else m.ss0
    eflags := entryFlags p.eflags g.trap
    mem := pushed p.mem (p.frameBase m) (p.frame back) }

/-- Back to where an interrupt was entered from ring 0. -/
def iret : Processor :=
  let cs := (load p.mem (p.esp + 4)).toUInt16
  let q : Processor :=
    { p with
      eip := p.top
      cs := cs
      eflags := load p.mem (p.esp + 4 + 4)
      esp := p.esp + 4 + 4 + 4 }
  if ring cs = 0 then q
  else { q with esp := q.top, ss := (load q.mem (q.esp + 4)).toUInt16 }

end Processor

namespace Board

variable (m : Board)

def exec (next : UInt32) (p : Processor) : Instr → Option Processor
  | .plain op =>
    if op.privileged = true ∧ p.cpl ≠ 0 then none else some ((op.exec p).goto next)
  | .jl target =>
    some (p.goto (if flag p.eflags sfFlag ≠ flag p.eflags ofFlag then target else next))
  | .jg target =>
    some (p.goto (if flag p.eflags zfFlag = false ∧
      flag p.eflags sfFlag = flag p.eflags ofFlag then target else next))
  | .call target => some ((p.push next).goto target)
  | .callTable table => some ((p.push next).goto (m.text (table + 4 * p.reg .eax)))
  | .int vector =>
    (gate (m.idt vector.toNat)).bind fun g ↦ if p.cpl ≤ g.dpl then some (p.enter m g next) else none
  | .iret => if p.cpl = 0 then some p.iret else none
  | .ret => some (p.skip.goto p.top)
  | .body f => some (f p)

def step (p : Processor) : Option Processor :=
  (m.code p.eip).bind fun (i, next) ↦ m.exec next p i

/-- A device interrupts what the processor does. -/
def interrupt (vector : ℕ) (p : Processor) : Option Processor :=
  if flag p.eflags ifFlag = true then
    (gate (m.idt vector)).map fun g ↦ p.enter m g p.eip
  else none

/-- The exceptions with which the processor pushes an error code. -/
def pushesCode (vector : ℕ) : Bool := vector ∈ [8, 10, 11, 12, 13, 14, 17]

/-- An exception comes up; its handler can go back to `back`. -/
def exception (vector : ℕ) (back code : UInt32) (p : Processor) : Option Processor :=
  (gate (m.idt vector)).map fun g ↦
    if pushesCode vector then (p.enter m g back).push code else p.enter m g back

end Board

inductive Syscall
  | halt
  | execute
  | readFd
  | writeFd
  | openFd
  | closeFd
  | getargs
  | vidmap
  | setHandler
  | sigreturn
  deriving DecidableEq

namespace Syscall

/-- The numbers that the user library knows the system calls by. -/
def number : Syscall → UInt32
  | halt => 1
  | execute => 2
  | readFd => 3
  | writeFd => 4
  | openFd => 5
  | closeFd => 6
  | getargs => 7
  | vidmap => 8
  | setHandler => 9
  | sigreturn => 10

end Syscall

/-- The addresses of what the assembly code names. -/
structure Symbols where
  handler : Handler → UInt32
  badSyscall : UInt32
  syscalls : UInt32
  function : Syscall → UInt32
  rtcHandler : UInt32
  keyboardHandler : UInt32
  wrapper : Syscall → UInt32
  start : UInt32
  main : UInt32

namespace Symbols

variable (sym : Symbols)

def makeHandler (func : UInt32) : List Instr :=
  [.plain .pushal,
    .plain .pushfl,
    .call func,
    .plain .popfl,
    .plain .popal,
    .plain .sti,
    .iret]

def handleRtc : List Instr := makeHandler sym.rtcHandler

def handleKeyboard : List Instr := makeHandler sym.keyboardHandler

def syscallTable : List UInt32 :=
  [0, sym.function .halt, sym.function .execute, sym.function .readFd, sym.function .writeFd,
    sym.function .openFd, sym.function .closeFd, sym.function .getargs, sym.function .vidmap,
    sym.function .setHandler, sym.function .sigreturn]

def handleSyscall : List Instr :=
  [.plain .pushfl,
    .plain (.cmpl 1 .eax),
    .jl sym.badSyscall,
    .plain (.cmpl 10 .eax),
    .jg sym.badSyscall,
    .plain (.pushl .ebx),
    .plain (.pushl .ecx),
    .plain (.pushl .edx),
    .plain (.pushl .ebp),
    .plain (.pushl .esi),
    .plain (.pushl .edi),
    .plain (.pushl .edx),
    .plain (.pushl .ecx),
    .plain (.pushl .ebx),
    .plain .sti,
    .callTable sym.syscalls,
    .plain .cli,
    .plain (.addEsp 12),
    .plain (.popl .edi),
    .plain (.popl .esi),
    .plain (.popl .ebp),
    .plain (.popl .edx),
    .plain (.popl .ecx),
    .plain (.popl .ebx),
    .plain .popfl,
    .plain .sti,
    .iret]

def badSyscallCode : List Instr :=
  [.plain .popfl,
    .plain (.movImm (-1) .eax),
    .plain .sti,
    .iret]

def doCall (number : UInt32) : List Instr :=
  [.plain (.pushl .ebx),
    .plain (.movImm number .eax),
    .plain (.movStack 8 .ebx),
    .plain (.movStack 12 .ecx),
    .plain (.movStack 16 .edx),
    .int 0x80,
    .plain (.popl .ebx),
    .ret]

def startCode : List Instr :=
  [.call sym.main,
    .plain (.pushImm 0),
    .plain (.pushImm 0),
    .plain (.pushl .eax),
    .call (sym.wrapper .halt)]

end Symbols

/-- The instructions stand one behind the other from one address to another. -/
def LiesAt (code : UInt32 → Option (Instr × UInt32)) : UInt32 → List Instr → UInt32 → Prop
  | a, [], b => a = b
  | a, i :: l, b => ∃ next, code a = some (i, next) ∧ LiesAt code next l b

/-- The assembly code and the interrupt table are where the linker and the kernel put them. -/
structure Assembled (m : Board) (sym : Symbols) : Prop where
  table : ∀ (i : ℕ) (h : i < sym.syscallTable.length),
    m.text (sym.syscalls + 4 * i.toUInt32) = sym.syscallTable[i]
  idt : ∀ n < numVec, m.idt n = (initIdt sym.handler (fun _ ↦ .zero) n).packed
  handleRtc : ∃ b, LiesAt m.code (sym.handler .handleRtc) sym.handleRtc b
  handleKeyboard : ∃ b, LiesAt m.code (sym.handler .handleKeyboard) sym.handleKeyboard b
  handleSyscall : ∃ b, LiesAt m.code (sym.handler .handleSyscall) sym.handleSyscall b
  badSyscall : ∃ b, LiesAt m.code sym.badSyscall Symbols.badSyscallCode b
  wrapper : ∀ c, ∃ b, LiesAt m.code (sym.wrapper c) (Symbols.doCall c.number) b
  start : ∃ b, LiesAt m.code sym.start sym.startCode b

end ApollOS
