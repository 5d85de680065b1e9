import Mathlib.Data.Nat.Notation
import Mathlib.Logic.Function.Basic

namespace ApollOS

open Function

def kernelCs : UInt16 := 0x10
def kernelDs : UInt16 := 0x18
def userCs : UInt16 := 0x23
def userDs : UInt16 := 0x2B

def numVec : ℕ := 256
def intKeyboard : ℕ := 0x21
def intRtc : ℕ := 0x28
def intSyscall : ℕ := 0x80

/-- An entry of the interrupt descriptor table. -/
structure IdtDesc where
  offset_15_00 : UInt16
  seg_selector : UInt16
  reserved4 : UInt8
  reserved3 : BitVec 1
  reserved2 : BitVec 1
  reserved1 : BitVec 1
  size : BitVec 1
  reserved0 : BitVec 1
  dpl : BitVec 2
  present : BitVec 1
  offset_31_16 : UInt16

namespace IdtDesc

/-- The entry as it lies in memory: the fields from the lowest bit on. -/
def packed (d : IdtDesc) : BitVec (16 + 1 + 2 + 1 + 1 + 1 + 1 + 1 + 8 + 16 + 16) :=
  d.offset_31_16.toBitVec ++ d.present ++ d.dpl ++ d.reserved0 ++ d.size ++ d.reserved1 ++
    d.reserved2 ++ d.reserved3 ++ d.reserved4.toBitVec ++ d.seg_selector.toBitVec ++
    d.offset_15_00.toBitVec

/-- The table in the kernel's image is filled with zeros. -/
def zero : IdtDesc where
  offset_15_00 := 0
  seg_selector := 0
  reserved4 := 0
  reserved3 := 0
  reserved2 := 0
  reserved1 := 0
  size := 0
  reserved0 := 0
  dpl := 0
  present := 0
  offset_31_16 := 0

def setIdtEntry (d : IdtDesc) (handler : UInt32) : IdtDesc :=
  { d with
    offset_31_16 := ((handler &&& 0xFFFF0000) >>> 16).toUInt16
    offset_15_00 := (handler &&& 0xFFFF).toUInt16 }

end IdtDesc

inductive Handler
  | exDivideError
  | exDebug
  | exNonMaskableInterrupt
  | exBreakpoint
  | exOverflow
  | exBoundRangeExceeded
  | exInvalidOpcode
  | exDeviceNotAvailable
  | exDoubleFault
  | exCoprocessorSegmentOverrun
  | exInvalidTss
  | exSegmentNotPresent
  | exStackFault
  | exGeneralProtection
  | exPageFault
  | exUnknown
  | exFloatingPointError
  | exAlignmentCheck
  | exMachineCheck
  | exFloatingPoint
  | exGeneric
  | handleRtc
  | handleKeyboard
  | handleSyscall
  deriving DecidableEq

section InitIdt

variable (address : Handler → UInt32)

def initVector (idt : ℕ → IdtDesc) (i : ℕ) : ℕ → IdtDesc :=
  let d := { idt i with
    seg_selector := kernelCs
    reserved4 := 0x0
    reserved3 := if i < 32 ∨ i = intSyscall then 0x1 else 0x0
    reserved2 := 0x1
    reserved1 := 0x1
    size := 0x1
    reserved0 := 0x0
    dpl := if i = intSyscall then 0x3 else 0x0
    present := 0x1 }
  update idt i (if i ≥ 32 then d.setIdtEntry (address .exGeneric) else d)

def namedEntries : List (ℕ × Handler) :=
  [(0x00, .exDivideError), (0x01, .exDebug), (0x02, .exNonMaskableInterrupt),
    (0x03, .exBreakpoint), (0x04, .exOverflow), (0x05, .exBoundRangeExceeded),
    (0x06, .exInvalidOpcode), (0x07, .exDeviceNotAvailable), (0x08, .exDoubleFault),
    (0x09, .exCoprocessorSegmentOverrun), (0x0A, .exInvalidTss), (0x0B, .exSegmentNotPresent),
    (0x0C, .exStackFault), (0x0D, .exGeneralProtection), (0x0E, .exPageFault),
    (0x0F, .exUnknown), (0x10, .exFloatingPointError), (0x11, .exAlignmentCheck),
    (0x12, .exMachineCheck), (0x13, .exFloatingPoint), (intRtc, .handleRtc),
    (intKeyboard, .handleKeyboard), (intSyscall, .handleSyscall)]

def initIdt (idt : ℕ → IdtDesc) : ℕ → IdtDesc :=
  namedEntries.foldl (fun idt e ↦ update idt e.1 ((idt e.1).setIdtEntry (address e.2)))
    ((List.range numVec).foldl (initVector address) idt)

end InitIdt

/-- What the processor makes of an entry for a 32-bit interrupt or trap gate. -/
structure Gate where
  offset : UInt32
  selector : UInt16
  dpl : ℕ
  trap : Bool

/-- The processor takes an entry for such a gate when it is present and its type is `01110` or
`01111`. -/
def gate (d : BitVec 64) : Option Gate :=
  if d.extractLsb' 47 1 = 1 ∧ d.extractLsb' 44 1 = 0 ∧ d.extractLsb' 43 1 = 1 ∧
      d.extractLsb' 42 1 = 1 ∧ d.extractLsb' 41 1 = 1 then
    some
      { offset := ⟨d.extractLsb' 48 16 ++ d.extractLsb' 0 16⟩
        selector := ⟨d.extractLsb' 16 16⟩
        dpl := (d.extractLsb' 45 2).toNat
        trap := decide (d.extractLsb' 40 1 = 1) }
  else none

end ApollOS
