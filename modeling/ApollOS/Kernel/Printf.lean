import ApollOS.Foundation.CountedLoop
import ApollOS.Kernel.FileSystem
import Mathlib.Logic.Function.Basic

namespace ApollOS

open CountedLoop Function

/-- A buffer: its bytes, with what they held before, and where it has been written. -/
structure Buffer where
  bytes : ℕ → UInt8
  stores : List ℕ

def Buffer.store (b : Buffer) (i : ℕ) (c : UInt8) : Buffer :=
  ⟨update b.bytes i c, b.stores ++ [i]⟩

def strlen (fuel : ℕ) (s : ℕ → UInt8) : Option ℕ :=
  (loop (fun i ↦ s i = 0) (· + 1) fuel 0).map fun r ↦ r.2

def putsBytes (fuel : ℕ) (s : ℕ → UInt8) : Option (List UInt8) :=
  (loop (fun i ↦ s i = 0) (· + 1) fuel 0).map fun r ↦ r.1.map s

section Itoa

def strrevLoop (p : ℕ) : ℕ → Buffer → ℤ → ℤ → Option Buffer
  | 0, _, _, _ => none
  | fuel + 1, s, beg, last =>
    if beg < last then
      let tmp := s.bytes (p + last.toNat)
      let s := s.store (p + last.toNat) (s.bytes (p + beg.toNat))
      strrevLoop p fuel (s.store (p + beg.toNat) tmp) (beg + 1) (last - 1)
    else some s

def strrev (fuel : ℕ) (s : Buffer) (p : ℕ) : Option Buffer :=
  (strlen fuel fun i ↦ s.bytes (p + i)).bind fun len ↦ strrevLoop p fuel s 0 ((len : ℤ) - 1)

def lookup : List UInt8 := ascii "0123456789ABCDEFGHIJKLMNOPQRSTUVWXYZ"

/-- The loop of `itoa`: the digits, the lowest first, and where they end. -/
def itoaLoop (radix : Int32) : ℕ → UInt32 → Buffer → ℕ → Option (Buffer × ℕ)
  | 0, _, _, _ => none
  | fuel + 1, newval, b, newbuf =>
    if newval > 0 then
      let i := (newval % radix.toUInt32).toNat
      itoaLoop radix fuel (newval / radix.toUInt32) (b.store newbuf (lookup.getD i 0)) (newbuf + 1)
    else some (b, newbuf)

def itoa (fuel : ℕ) (value : UInt32) (b : Buffer) (p : ℕ) (radix : Int32) : Option Buffer :=
  if value = 0 then some ((b.store p '0'.toUInt8).store (p + 1) 0)
  else (itoaLoop radix fuel value b p).bind fun (b, newbuf) ↦ strrev fuel (b.store newbuf 0) p

end Itoa

/-- The characters that `printf` tells apart behind a percent sign. -/
inductive Specifier
  | percent | sharp | hex | unsigned | signed | char | string | other
  deriving DecidableEq

def specifier (c : UInt8) : Specifier :=
  if c = '%'.toUInt8 then .percent
  else if c = '#'.toUInt8 then .sharp
  else if c = 'x'.toUInt8 then .hex
  else if c = 'u'.toUInt8 then .unsigned
  else if c = 'd'.toUInt8 then .signed
  else if c = 'c'.toUInt8 then .char
  else if c = 's'.toUInt8 then .string
  else .other

/-- What a call of `printf` finds: the memory from `format` on, the words on the stack
above it, the bytes from an address on, and what lies in a local array. -/
structure PrintfCall where
  format : ℕ → UInt8
  stack : ℕ → UInt32
  memory : UInt32 → ℕ → UInt8
  garbage : ℕ → ℕ → UInt8

/-- Where `printf` has come to: its two pointers, counted from the format and from the
first argument, what `putc` has been given, what was read of the format, and the writes to
local arrays with the sizes of these. -/
structure PrintfState where
  buf : ℕ
  esp : ℕ
  sent : List UInt8
  reads : List ℕ
  stores : List (ℕ × ℕ)

namespace PrintfState

variable (s : PrintfState)

def read : PrintfState := { s with reads := s.reads ++ [s.buf] }
def putc (c : UInt8) : PrintfState := { s with sent := s.sent ++ [c] }
def puts (text : List UInt8) : PrintfState := { s with sent := s.sent ++ text }
def nextChar : PrintfState := { s with buf := s.buf + 1 }
def nextArg : PrintfState := { s with esp := s.esp + 1 }

/-- A local array of the given size goes out of use. -/
def wrote (size : ℕ) (b : Buffer) : PrintfState :=
  { s with stores := s.stores ++ b.stores.map fun i ↦ (size, i) }

end PrintfState

namespace PrintfCall

variable (call : PrintfCall)

def convBuf (s : PrintfState) : Buffer := ⟨call.garbage s.buf, []⟩

/-- `puts(&conv_buf[start])`, and the end of the block of `conv_buf`. -/
def putsConvBuf (fuel size : ℕ) (convBuf : Buffer) (start : ℕ) (s : PrintfState) :
    Option PrintfState :=
  (putsBytes fuel fun i ↦ convBuf.bytes (start + i)).map fun text ↦
    ((s.puts text).wrote size convBuf).nextArg

def printHex (fuel : ℕ) (s : PrintfState) : Option PrintfState :=
  (itoa fuel (call.stack s.esp) (call.convBuf s) 0 16).bind fun convBuf ↦
    putsConvBuf fuel 64 convBuf 0 s

def printHex8 (fuel : ℕ) (s : PrintfState) : Option PrintfState :=
  (itoa fuel (call.stack s.esp) (call.convBuf s) 8 16).bind fun convBuf ↦
    (strlen fuel fun i ↦ convBuf.bytes (8 + i)).bind fun startingIndex ↦
      let padded := (List.range' startingIndex (8 - startingIndex)).foldl
        (fun convBuf i ↦ convBuf.store i '0'.toUInt8) convBuf
      putsConvBuf fuel 64 padded startingIndex s

def printUnsigned (fuel : ℕ) (s : PrintfState) : Option PrintfState :=
  (itoa fuel (call.stack s.esp) (call.convBuf s) 0 10).bind fun convBuf ↦
    putsConvBuf fuel 36 convBuf 0 s

def printSigned (fuel : ℕ) (s : PrintfState) : Option PrintfState :=
  let value := (call.stack s.esp).toInt32
  let filled :=
    if value < 0 then
      itoa fuel (-value).toUInt32 ((call.convBuf s).store 0 '-'.toUInt8) 1 10
    else itoa fuel value.toUInt32 (call.convBuf s) 0 10
  filled.bind fun convBuf ↦ putsConvBuf fuel 36 convBuf 0 s

def printString (fuel : ℕ) (s : PrintfState) : Option PrintfState :=
  (putsBytes fuel (call.memory (call.stack s.esp))).map fun text ↦ (s.puts text).nextArg

/-- The inner `switch` of `printf`, and the jumps back to it. -/
def formatCharSwitch : ℕ → Bool → PrintfState → Option PrintfState
  | 0, _, _ => none
  | fuel + 1, alternate, s =>
    match specifier (call.format s.buf) with
    | .percent => some (s.read.putc '%'.toUInt8)
    | .sharp => formatCharSwitch fuel true s.read.nextChar
    | .hex => if alternate then call.printHex8 fuel s.read else call.printHex fuel s.read
    | .unsigned => call.printUnsigned fuel s.read
    | .signed => call.printSigned fuel s.read
    | .char => some (s.read.putc (call.stack s.esp).toUInt8).nextArg
    | .string => call.printString fuel s.read
    | .other => some s.read

def printfLoop : ℕ → PrintfState → Option PrintfState
  | 0, _ => none
  | fuel + 1, s =>
    let c := call.format s.buf
    if c = 0 then some s.read
    else if c = '%'.toUInt8 then
      (call.formatCharSwitch fuel false s.read.nextChar).bind fun s ↦ printfLoop fuel s.nextChar
    else printfLoop fuel (s.read.putc c).nextChar

/-- `printf`: the state it ends in, of which it returns `buf - format`. -/
def printf (fuel : ℕ) : Option PrintfState := call.printfLoop fuel ⟨0, 0, [], [], []⟩

end PrintfCall

end ApollOS
