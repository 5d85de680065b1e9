import ApollOS.Kernel.Devices

namespace ApollOS

def master8259Port : ℕ := 0x20
def slave8259Port : ℕ := 0xA0

def icw1 : UInt8 := 0x11
def icw2Master : UInt8 := 0x20
def icw2Slave : UInt8 := 0x28
def icw3Master : UInt8 := 0x04
def icw3Slave : UInt8 := 0x02
def icw4 : UInt8 := 0x01
def eoi : UInt8 := 0x60

/-- One 8259: its interrupt mask register, and how many of the initialization words that the
data port has to be given are still to come. -/
structure Chip where
  imr : UInt8
  icws : ℕ
  deriving DecidableEq, Repr

namespace Chip

variable (c : Chip) (data : UInt8)

/-- A write to the command port: bit 4 marks the first initialization word. -/
def command : Chip := if data &&& 0x10 = 0 then c else { imr := 0, icws := 3 }

def dataPort : Chip :=
  match c.icws with
  | 0 => { c with imr := data }
  | n + 1 => { c with icws := n }

end Chip

/-- The two chips, and the copies of their masks that the kernel keeps. -/
structure Pics where
  devices : Devices
  master : Chip
  slave : Chip

namespace Pics

variable (s : Pics)

def outb (data : UInt8) (port : ℕ) : Pics :=
  if port = master8259Port then { s with master := s.master.command data }
  else if port = master8259Port + 1 then { s with master := s.master.dataPort data }
  else if port = slave8259Port then { s with slave := s.slave.command data }
  else if port = slave8259Port + 1 then { s with slave := s.slave.dataPort data }
  else s

/-- What `enable_irq` and `disable_irq` send once the copy of the mask is changed. -/
def sendMask (devices : Devices) (irqNum : UInt32) : Pics :=
  let s := { s with devices := devices }
  if irqNum ≤ 7 then s.outb devices.masterMask (master8259Port + 1)
  else if irqNum ≤ 15 then s.outb devices.slaveMask (slave8259Port + 1)
  else s

def enableIrq (irqNum : UInt32) : Pics := s.sendMask (s.devices.enableIrq irqNum.toNat) irqNum

def disableIrq (irqNum : UInt32) : Pics := s.sendMask (s.devices.disableIrq irqNum.toNat) irqNum

def i8259Init : Pics :=
  let s := s.outb icw1 master8259Port
  let s := s.outb icw1 slave8259Port
  let s := s.outb icw2Master (master8259Port + 1)
  let s := s.outb icw2Slave (slave8259Port + 1)
  let s := s.outb icw3Master (master8259Port + 1)
  let s := s.outb icw3Slave (slave8259Port + 1)
  let s := s.outb icw4 (master8259Port + 1)
  let s := s.outb icw4 (slave8259Port + 1)
  s.enableIrq slaveIrqLine.toUInt32

def sendEoi (irqNum : UInt32) : Pics :=
  let s := if irqNum ≤ 7 then s.outb (eoi ||| irqNum.toUInt8) master8259Port else s
  if 8 ≤ irqNum ∧ irqNum ≤ 15 then
    (s.outb (eoi ||| (irqNum - 8).toUInt8) slave8259Port).outb (eoi + 2) master8259Port
  else s

/-- The machine when the kernel has been loaded: whatever state the chips are in, no line is
enabled in the masks. -/
def loaded (devices : Devices) (master slave : Chip) : Pics where
  devices := { devices with masterMask := 0xFF, slaveMask := 0xFF }
  master := master
  slave := slave

/-- Whether the chips let an interrupt line through. -/
def unmasked (line : ℕ) : Bool :=
  if line < 8 then !s.master.imr.toNat.testBit line else !s.slave.imr.toNat.testBit (line - 8)

end Pics

inductive IrqCall
  | enableIrq (irqNum : UInt32)
  | disableIrq (irqNum : UInt32)
  deriving DecidableEq, Repr

namespace IrqCall

def irqNum : IrqCall → UInt32
  | enableIrq irqNum => irqNum
  | disableIrq irqNum => irqNum

def call (s : Pics) : IrqCall → Pics
  | enableIrq irqNum => s.enableIrq irqNum
  | disableIrq irqNum => s.disableIrq irqNum

end IrqCall

end ApollOS
