import ApollOS.Kernel.Assembly
import ApollOS.Kernel.System

namespace ApollOS

open Words

/-- `sizeof(pcb_t)`, and where its fields `args` and `parent_pid` lie. -/
def pcbSize : ℕ := 376
def argsOffset : ℕ := 225
def parentPidOffset : ℕ := 364

/-- How many bytes of the kernel stack are in use when a system call asks for the current PCB, and
how many at the most, with the interrupts that come during the call. -/
structure StackUse where
  atPcb : Syscall → ℕ
  most : ℕ
  atPcb_le : ∀ c, atPcb c ≤ most

def FdCall.syscall : FdCall → Syscall
  | openFd _ => .openFd
  | closeFd _ => .closeFd
  | readFd _ _ _ => .readFd
  | writeFd _ _ _ => .writeFd

def pidAt (pcb : UInt32) : ℕ := (physicalStart - pcb.toNat) / eightKbBlock - 1

/-- The stack pointer is in the running process's own block, and a system call that starts there
comes to its end before it reaches the PCB. -/
structure OnStack (s : StackUse) (k : Kernel) : Prop where
  fits : (getPcb k.runningPid).toNat + pcbSize + s.most ≤ k.esp0.toNat
  own : k.esp0.toNat ≤ (kernelStackTop k.runningPid).toNat

instance (s : StackUse) (k : Kernel) : Decidable (OnStack s k) :=
  decidable_of_iff ((getPcb k.runningPid).toNat + pcbSize + s.most ≤ k.esp0.toNat ∧
    k.esp0.toNat ≤ (kernelStackTop k.runningPid).toNat) ⟨fun ⟨h, h'⟩ ↦ ⟨h, h'⟩, fun h ↦ ⟨h.1, h.2⟩⟩

namespace Kernel

variable (b : Build) (s : StackUse) (k : Kernel)

/-- The process whose PCB `get_current_pcb` finds while `used` bytes of the stack are in use. -/
def currentPid (used : ℕ) : ℕ := pidAt (getCurrentPcb (k.esp0 - used.toUInt32))

def stepOnStack (a : Action) : Option Kernel :=
  match a with
  | .execute command =>
    (k.executeWith b (k.currentPid (s.atPcb .execute)) command).map Prod.fst
  | .halt status => (k.haltWith b (k.currentPid (s.atPcb .halt)) status).map Prod.fst
  | .fdCall call => (k.fdCall b (k.currentPid (s.atPcb call.syscall)) call).map Prod.fst
  | a => k.step b a

end Kernel

/-- `getargs` at stack pointer `esp`, with the PCBs in memory: the return value and the bytes stored
in the buffer. -/
def getargsAt (mem : Bytes) (esp : UInt32) (buf : Bool) (nbytes : ℤ) : ℤ × List UInt8 :=
  if buf = false then (-1, [])
  else
    let args (i : ℕ) : UInt8 := mem (getCurrentPcb esp + (argsOffset + i).toUInt32)
    if args 0 = 0 then (-1, [])
    else
      let nbytes := if nbytes > maxArgsLength then (maxArgsLength : ℤ) else nbytes
      (0, (List.range (UInt32.ofInt nbytes).toNat).map args)

end ApollOS
