import ApollOS.Kernel.State

namespace ApollOS

/-- The registers that the string instructions use, the direction flag, and memory. The segments
are flat and left out. -/
structure Cpu where
  eax : UInt32
  ecx : UInt32
  edx : UInt32
  esi : UInt32
  edi : UInt32
  df : Bool
  mem : Memory

namespace Cpu

variable (s : Cpu)

def al : UInt8 := s.eax.toUInt8

def setAl (x : UInt8) : Cpu := { s with eax := s.eax &&& 0xFFFFFF00 ||| x.toUInt32 }

def loadByte (a : UInt32) : UInt8 := s.mem a.toNat

def storeByte (a : UInt32) (x : UInt8) : Cpu :=
  { s with mem := Function.update s.mem (a.toNat : ℤ) x }

def storeLong (a : UInt32) (x₀ x₁ x₂ x₃ : UInt8) : Cpu :=
  (((s.storeByte a x₀).storeByte (a + 1) x₁).storeByte (a + 2) x₂).storeByte (a + 3) x₃

/-- How far a string instruction moves the index registers on. -/
def stride (k : UInt32) : UInt32 := if s.df then -k else k

def stosl : Cpu :=
  { s.storeLong s.edi s.eax.toUInt8 (s.eax >>> 8).toUInt8 (s.eax >>> 16).toUInt8
      (s.eax >>> 24).toUInt8 with
    edi := s.edi + s.stride 4 }

def movsl : Cpu :=
  { s.storeLong s.edi (s.loadByte s.esi) (s.loadByte (s.esi + 1)) (s.loadByte (s.esi + 2))
      (s.loadByte (s.esi + 3)) with
    esi := s.esi + s.stride 4
    edi := s.edi + s.stride 4 }

def movsb : Cpu :=
  { s.storeByte s.edi (s.loadByte s.esi) with
    esi := s.esi + s.stride 1
    edi := s.edi + s.stride 1 }

def rep (op : Cpu → Cpu) : Cpu :=
  (fun s ↦ { op s with ecx := s.ecx - 1 })^[s.ecx.toNat] s

section Phases

/-! `memset` and `memcpy` go through the same phases: single bytes until the destination is
aligned, then four bytes at a time, then the bytes that are left. -/

variable (byte long : Cpu → Cpu)

def bottom : ℕ → Cpu → Option Cpu
  | 0, _ => none
  | fuel + 1, s =>
    if s.edx = 0 then some s
    else bottom fuel { byte s with edx := s.edx - 1 }

def aligned (fuel : ℕ) (s : Cpu) : Option Cpu :=
  bottom byte fuel ({ s with edx := s.ecx &&& 3, ecx := s.ecx >>> 2, df := false }.rep long)

def top : ℕ → Cpu → Option Cpu
  | 0, _ => none
  | fuel + 1, s =>
    if s.ecx = 0 then some s
    else if s.edi &&& 3 = 0 then aligned byte long fuel s
    else top fuel { byte s with ecx := s.ecx - 1 }

end Phases

def memsetByte : Cpu := { s.storeByte s.edi s.al with edi := s.edi + 1 }

def memcpyByte : Cpu :=
  let s := s.setAl (s.loadByte s.esi)
  { s.storeByte s.edi s.al with edi := s.edi + 1, esi := s.esi + 1 }

def memset (fuel : ℕ) (dest : UInt32) (c : Int32) (n : UInt32) : Option (Cpu × UInt32) :=
  let c := (c &&& 0xFF).toUInt32
  (top memsetByte stosl fuel
    { s with eax := c <<< 24 ||| c <<< 16 ||| c <<< 8 ||| c, edi := dest, ecx := n }).map (·, dest)

def memcpy (fuel : ℕ) (dest src n : UInt32) : Option (Cpu × UInt32) :=
  (top memcpyByte movsl fuel { s with esi := src, edi := dest, ecx := n }).map (·, dest)

/-- The addresses are compared as unsigned numbers. -/
def memmove (dest src n : UInt32) : Cpu × UInt32 :=
  let s := { s with esi := src, edi := dest, ecx := n, df := false }
  let s :=
    if s.esi ≥ s.edi then s
    else { s with esi := s.esi + s.ecx - 1, edi := s.edi + s.ecx - 1, df := true }
  (s.rep movsb, dest)

end Cpu

end ApollOS
