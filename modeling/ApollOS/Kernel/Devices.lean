import ApollOS.Kernel.State
import Mathlib.Logic.Function.Iterate

namespace ApollOS

def rtcIrqLine : ℕ := 8
def slaveIrqLine : ℕ := 2

def rtcSetRate : UInt8 := 0xF0
def rtcEnableInterrupt : UInt8 := 0x40

namespace Devices

variable (d : Devices)

def enableIrq (irqNum : ℕ) : Devices :=
  if irqNum ≤ 7 then
    { d with masterMask := d.masterMask &&& (fun mask : UInt8 ↦ (mask <<< 1) + 1)^[irqNum] 0xFE }
  else if irqNum ≤ 15 then
    { d with slaveMask := d.slaveMask &&& (fun mask : UInt8 ↦ (mask <<< 1) + 1)^[irqNum - 8] 0xFE }
  else d

def disableIrq (irqNum : ℕ) : Devices :=
  if irqNum ≤ 7 then
    { d with masterMask := d.masterMask ||| (fun mask : UInt8 ↦ mask <<< 1)^[irqNum] 0x01 }
  else if irqNum ≤ 15 then
    { d with slaveMask := d.slaveMask ||| (fun mask : UInt8 ↦ mask <<< 1)^[irqNum - 8] 0x01 }
  else d

def rtcOpen : Devices :=
  { d with
    rtcRegB := d.rtcRegB ||| rtcEnableInterrupt
    rtcRegA := d.rtcRegA &&& rtcSetRate ||| 15
    intOccur := false }.enableIrq rtcIrqLine

def rtcClose : Devices :=
  { d.disableIrq rtcIrqLine with rtcRegA := d.rtcRegA &&& rtcSetRate ||| 0 }

end Devices

/-- The rate `rtc_write` computes from a frequency: `char` arithmetic, counted
down once for every halving of a frequency above 1. -/
def rtcRate (freq : Int32) : Int8 :=
  let rec halve : ℕ → Int32 → Int8 → Int8
    | 0, _, rate => rate
    | n + 1, freq, rate => if freq > 1 then halve n (freq >>> 1) (rate - 1) else rate
  halve 32 freq (if freq = 0 then 0 else 16)

end ApollOS
