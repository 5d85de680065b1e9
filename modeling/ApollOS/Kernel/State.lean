import ApollOS.Kernel.FileSystem
import Mathlib.Data.Fin.Basic
import Mathlib.Data.PNat.Notation
import Mathlib.Logic.Function.Basic

namespace ApollOS

abbrev Memory := ℤ → UInt8

def video : ℤ := 0xB8000
def numCols : ℕ := 80
def numRows : ℕ := 25

/-- Physical memory with the cursor of lib.c. What the screen shows is the text
memory at `video`, two bytes to a cell. -/
structure Console where
  mem : Memory
  screenX : ℤ
  screenY : ℤ
  /-- The position last sent to the display's cursor registers. -/
  cursorLoc : UInt16
  /-- The addresses the text routines have stored to. A record of the run that
  the code does not keep. -/
  stored : List ℤ

abbrev keyBufferSize : ℕ := 128

abbrev KeyBuffer := Vector UInt8 keyBufferSize

structure Terminal where
  keyBuffer : KeyBuffer
  keyBufferPos : UInt32
  posX : ℤ
  posY : ℤ
  termPid : ℕ
  vidMem : ℤ
  numProcesses : ℤ
  init : Bool

structure Keyboard where
  keyBufferPos : UInt32
  enterPressed : Bool
  rightBound : ℤ
  shiftPressed : Bool
  capslockState : Bool
  ctrlPressed : Bool
  altPressed : Bool
  keysState : ℕ
  /-- The indices at which key buffers have been read or written. A record of
  the run that the code does not keep. -/
  touched : List ℕ

abbrev Table := ℕ → UInt32

structure Paging where
  pageDir : Table
  pageTable : Table
  userTable : Table

/-- A table of file operations is known by the device it belongs to. -/
inductive FileOps
  | stdin | stdout | rtc | dir | file | fail
  deriving DecidableEq, Repr

def fileOpen : BitVec 32 := 1

abbrev maxFiles : ℕ := 8

structure File where
  inode : UInt32
  flags : BitVec 32
  pos : UInt32
  fileops : FileOps
  deriving DecidableEq, Repr

def File.isOpen (f : File) : Bool := f.flags &&& fileOpen != 0

structure Pcb where
  files : Fin maxFiles → File
  pid : ℕ
  args : List UInt8
  parentPid : ℕ
  parentEsp : UInt32

structure Devices where
  masterMask : UInt8
  slaveMask : UInt8
  rtcRegA : UInt8
  rtcRegB : UInt8
  intOccur : Bool

abbrev maxTerminals : ℕ := 3
def maxProcesses : ℕ := 6

/-- Terminals 1, 2, 3 of the source are 0, 1, 2 here, so `termCur` is the index
`term_cur - 1` it uses everywhere. -/
structure Kernel where
  console : Console
  keyboard : Keyboard
  terminal : Fin maxTerminals → Terminal
  termCur : Fin maxTerminals
  /-- The pointer `key_buffer`, as the terminal whose buffer it points to. -/
  keyBuffer : Fin maxTerminals
  paging : Paging
  processesFlags : BitVec 8
  pcb : ℕ → Pcb
  esp0 : UInt32
  devices : Devices

/-- Who calls `execute`: a system call, `halt` or `terminal_start`. -/
inductive CallSite
  | syscall | halt | terminalStart
  deriving DecidableEq, Repr

/-- What is fixed when the kernel is built and booted: the file system image,
where the linker put the two page tables, and how many bytes of kernel stack
are in use when `execute` saves its stack pointer. -/
structure Build where
  image : Image
  pageTableAddr : ℕ
  userTableAddr : ℕ
  pageTable_lt : pageTableAddr < 2 ^ 32
  userTable_lt : userTableAddr < 2 ^ 32
  pageTable_aligned : pageTableAddr % 4096 = 0
  userTable_aligned : userTableAddr % 4096 = 0
  tables_ne : pageTableAddr ≠ userTableAddr
  depth : CallSite → UInt32
  depth_pos : ∀ site, 0 < depth site

namespace Kernel

variable (k : Kernel)

/-- The record `terminal[term_cur - 1]`. -/
def current : Terminal := k.terminal k.termCur

/-- The process that runs in user mode. -/
def runningPid : ℕ := k.current.termPid

def setTerminal (t : Fin maxTerminals) (f : Terminal → Terminal) : Kernel :=
  { k with terminal := Function.update k.terminal t (f (k.terminal t)) }

def setPcb (p : ℕ) (f : Pcb → Pcb) : Kernel :=
  { k with pcb := Function.update k.pcb p (f (k.pcb p)) }

def live (p : ℕ) : Prop := k.processesFlags.getLsbD p = true

instance (p : ℕ) : Decidable (k.live p) := inferInstanceAs (Decidable (_ = true))

end Kernel

end ApollOS
