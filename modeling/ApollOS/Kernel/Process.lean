import ApollOS.Kernel.Descriptor
import ApollOS.Kernel.Paging
import Mathlib.Algebra.BigOperators.Fin

namespace ApollOS

open scoped BigOperators

abbrev commandSize : ℕ := 128
abbrev maxArgsLength : ℕ := 128
def magicSize : ℕ := 4
def eightKbBlock : ℕ := 0x2000
def pcbMask : UInt32 := 0x00FFE000

def endsWord (c : UInt8) : Bool := c == 32 || c == 0 || c == 10

def endsArgs (c : UInt8) : Bool := c == 0 || c == 10

def commandWord (text : List UInt8) : List UInt8 := text.takeWhile (!endsWord ·)

def commandArgs (text : List UInt8) : List UInt8 :=
  match text.dropWhile (!endsWord ·) with
  | [] => []
  | c :: rest => if c = 32 then rest.takeWhile (!endsArgs ·) else []

/-- A command whose words fit the buffers of `execute`. -/
structure Command where
  text : List UInt8
  word_lt : (commandWord text).length < commandSize
  args_lt : (commandArgs text).length < commandSize

def shellCommand : Command := ⟨ascii "shell", by decide, by decide⟩

def elfMagic : List UInt8 := [0x7F, 0x45, 0x4C, 0x46]

def kernelStackTop (pid : ℕ) : UInt32 :=
  physicalStart.toUInt32 - pid.toUInt32 * eightKbBlock.toUInt32 - magicSize.toUInt32

def getPcb (pid : ℕ) : UInt32 :=
  physicalStart.toUInt32 - eightKbBlock.toUInt32 * (pid.toUInt32 + 1)

def getCurrentPcb (esp : UInt32) : UInt32 := esp &&& pcbMask

/-- Where control goes after a system call: back to the caller, to the entry
point of a program that was started, or out of the `execute` of the parent. -/
inductive Outcome
  | returned (value : ℤ)
  | started (entry : UInt32)
  | resumed (status : UInt8)
  deriving DecidableEq, Repr

/-- A call in the middle of a function. Control comes back from it only if it
returns. -/
def afterCall {α : Type} (r : Option (α × Outcome)) (cont : α → Option (α × Outcome)) :
    Option (α × Outcome) :=
  match r with
  | some (k, .returned _) => cont k
  | r => r

namespace Kernel

variable (b : Build) (k : Kernel)

def canExecute : Bool := ∑ t, (k.terminal t).numProcesses < maxProcesses

/-- `get_new_pid`: the lowest clear bit of the flags, and the flags with it set. -/
def getNewPid : Option (ℕ × BitVec 8) :=
  ((List.range maxProcesses).find? fun i ↦ k.processesFlags &&& 1#8 <<< i == 0).map fun i ↦
    (i, k.processesFlags ||| 1#8 <<< i)

/-- The descriptors `create_pcb` sets up. It leaves the inodes of the first two
as it finds them. -/
def initFiles (files : Fin maxFiles → File) (i : Fin maxFiles) : File :=
  if i = 0 then { files i with fileops := .stdin, flags := fileOpen, pos := 0 }
  else if i = 1 then { files i with fileops := .stdout, flags := fileOpen, pos := 0 }
  else { fileops := .fail, flags := 0, inode := 0, pos := 0 }

def createPcb : Option (Kernel × ℕ) :=
  k.getNewPid.map fun (pid, flags) ↦
    ({ k with processesFlags := flags }.setPcb pid fun pcb ↦
      { pcb with
        pid := pid
        parentPid := if k.current.numProcesses = 0 then pid else k.current.termPid
        files := initFiles pcb.files
        args := List.replicate maxArgsLength 0 }, pid)

/-- The rest of `execute` once there is a PCB. `none` is a page fault while the
program is copied in. -/
def loadProgram (site : CallSite) (pid : ℕ) (inode : UInt32) (args : List UInt8) :
    Option Kernel :=
  let k := k.setTerminal k.termCur fun t ↦
    { t with numProcesses := t.numProcesses + 1, termPid := (k.pcb pid).pid }
  let k := k.setPcb pid fun pcb ↦ { pcb with parentEsp := k.esp0 - b.depth site }
  let k := { k with paging := k.paging.remap virtualStart (userBlock pid) }
  let program := (readData b.image inode 0 fourMb.toUInt32).getD []
  (storeBytes b k.paging program executeStart k.console.mem).map fun mem ↦
    let k := { k with console := { k.console with mem := mem }, esp0 := kernelStackTop pid }
    k.setPcb pid fun pcb ↦ { pcb with args := strncpy (cstr args) maxArgsLength }

def launch (site : CallSite) (command : Command) : Option (Kernel × Outcome) :=
  match readDentryByName b.image (cstr (commandWord command.text)) with
  | none => some (k, .returned (-1))
  | some dentry =>
    let buffer := readInto b.image dentry.inodeNum 0 (List.replicate magicSize 0)
    if buffer ≠ elfMagic then some (k, .returned (-1))
    else if k.canExecute = false then
      let message := ascii "Maximum number of processes reached\n"
      some ({ k with console := k.console.puts message }, .returned 0)
    else
      let comStart := le32 (cstr (readInto b.image dentry.inodeNum 24 buffer)) 0
      match k.createPcb with
      | none => some (k, .returned (-1))
      | some (k, pid) =>
        (k.loadProgram b site pid dentry.inodeNum (commandArgs command.text)).map fun k ↦
          (k, .started comStart)

def closeFiles (files : Fin maxFiles → File) (d : Devices) : Devices :=
  (List.finRange maxFiles).foldl (fun d i ↦
    if 2 ≤ i.val ∧ (files i).isOpen then ((files i).fileops.closeOp i.val d).1 else d) d

/-- `halt`, where `get_current_pcb` finds the PCB of process `p`. -/
def haltWith (p : ℕ) (status : UInt8) : Option (Kernel × Outcome) :=
  let k := { k with devices := closeFiles (k.pcb p).files k.devices }
  let k := k.setTerminal k.termCur fun t ↦ { t with numProcesses := t.numProcesses - 1 }
  let k := { k with processesFlags := k.processesFlags &&& ~~~(1#8 <<< (k.pcb p).pid) }
  afterCall (if k.current.numProcesses = 0 then k.launch b .halt shellCommand
    else some (k, .returned 0)) fun k ↦
  afterCall (if k.processesFlags = 0 then k.launch b .halt shellCommand
    else some (k, .returned 0)) fun k ↦
  let parentPid := (k.pcb p).parentPid
  let k := k.setTerminal k.termCur fun t ↦ { t with termPid := parentPid % 256 }
  let k := { k with
    paging := k.paging.remap virtualStart (userBlock parentPid)
    esp0 := (k.pcb p).parentEsp }
  some (k, .resumed status)

def halt (status : UInt8) : Option (Kernel × Outcome) := k.haltWith b k.runningPid status

def isExit (command : Command) : Bool :=
  strncmp (cstr (commandWord command.text)) (cstr (ascii "exit")) 4 == 0

/-- The system call `execute`, with the PCB that `halt` finds in it; `none` is the pointer NULL. -/
def executeWith (p : ℕ) (command : Option Command) : Option (Kernel × Outcome) :=
  match command with
  | none => some (k, .returned (-1))
  | some command =>
    if isExit command then afterCall (k.haltWith b p 0) fun k ↦ some (k, .returned 0)
    else k.launch b .syscall command

def execute (command : Option Command) : Option (Kernel × Outcome) :=
  k.executeWith b k.runningPid command

theorem execute_some (command : Command) : k.execute b (some command) =
    if isExit command then afterCall (k.halt b 0) fun k ↦ some (k, .returned 0)
    else k.launch b .syscall command := rfl

end Kernel

end ApollOS
