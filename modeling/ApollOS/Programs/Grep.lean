import ApollOS.Kernel.Descriptor

namespace ApollOS

def bufSize : ℕ := 1024

/-- What a user program finds behind a pointer; `none` outside the object that it points into. -/
abbrev Ptr := ℕ → Option UInt8

structure UserCalls (σ : Type) where
  ece391Open : (ℕ → UInt8) → σ → σ × ℤ
  ece391Read : ℤ → ℕ → σ → Option (σ × ℤ × List UInt8)
  ece391Write : ℤ → List UInt8 → σ → σ
  ece391Close : ℤ → σ → σ × ℤ

def ece391Strlen (s : Ptr) : ℕ → ℕ → Option ℕ
  | 0, _ => none
  | fuel + 1, len => do
    let c ← s len
    if c = 0 then some len else ece391Strlen s fuel (len + 1)

/-- `ece391_strncmp`, with `n` bytes left to compare from `i` on. -/
def ece391Strncmp (s₁ s₂ : Ptr) : ℕ → ℕ → Option ℤ
  | 0, _ => some 0
  | n + 1, i => do
    let c₁ ← s₁ i
    let c₂ ← s₂ i
    if c₁ = c₂ then
      if c₁ = 0 ∨ n = 0 then some 0 else ece391Strncmp s₁ s₂ n (i + 1)
    else some (c₁.toNat - c₂.toNat)

/-- The array `data` of `do_one_file`, with room for one byte behind those that are read. -/
abbrev LineBuffer := ℕ → UInt8

namespace LineBuffer

variable (data : LineBuffer)

def load (i : ℕ) : Option UInt8 := if i < bufSize + 1 then some (data i) else none

def store (i : ℕ) (c : UInt8) : Option LineBuffer :=
  if i < bufSize + 1 then some (Function.update data i c) else none

def ptr (i : ℕ) : Ptr := fun j ↦ data.load (i + j)

def fill (i : ℕ) (bytes : List UInt8) : Option LineBuffer :=
  if i + bytes.length ≤ bufSize + 1 then
    some fun j ↦ if i ≤ j ∧ j < i + bytes.length then bytes.getD (j - i) 0 else data j
  else none

def ece391Strcpy : ℕ → LineBuffer → ℕ → ℕ → Option LineBuffer
  | 0, _, _, _ => none
  | fuel + 1, data, dst, src => do
    let c ← data.load src
    let data ← data.store dst c
    if c ≠ 0 then ece391Strcpy fuel data (dst + 1) (src + 1) else some data

def findEnd (last : ℕ) : ℕ → ℕ → Option ℕ
  | 0, _ => none
  | fuel + 1, lineEnd =>
    if lineEnd < last then do
      let c ← data.load lineEnd
      if c ≠ '\n'.toUInt8 then findEnd last fuel (lineEnd + 1) else some lineEnd
    else some lineEnd

/-- The loop that looks for the pattern in a line. The first byte of the pattern is a signed
`char`, those of the line are not. -/
def search (s : ℕ → UInt8) (sLen lineEnd : ℕ) : ℕ → ℕ → Option Bool
  | 0, _ => none
  | fuel + 1, check =>
    if check < lineEnd then do
      let c ← data.load check
      if (s 0).toInt8.toInt = c.toNat then do
        let r ← ece391Strncmp (data.ptr check) (fun i ↦ some (s i)) sLen 0
        if r = 0 then some true else search s sLen lineEnd fuel (check + 1)
      else search s sLen lineEnd fuel (check + 1)
    else some false

end LineBuffer

namespace UserCalls

variable {σ : Type} (calls : UserCalls σ)

def ece391Fdputs (fuel : ℕ) (fd : ℤ) (s : Ptr) (st : σ) : Option σ := do
  let len ← ece391Strlen s fuel 0
  let bytes ← (List.range len).mapM s
  some (calls.ece391Write fd bytes st)

def message (text : List UInt8) : Ptr := fun i ↦ some (cstr text i)

def report (fuel : ℕ) (fname : ℕ → UInt8) (line : Ptr) (st : σ) : Option σ := do
  let st ← calls.ece391Fdputs fuel 1 (fun i ↦ some (fname i)) st
  let st ← calls.ece391Fdputs fuel 1 (message (ascii ":")) st
  let st ← calls.ece391Fdputs fuel 1 line st
  calls.ece391Fdputs fuel 1 (message (ascii "\n")) st

section DoOneFile

variable (s fname : ℕ → UInt8) (sLen : ℕ) (fd : ℤ)

/-- The inner loop: the lines that are in the buffer, up to one that is not known to be
complete. -/
def scanLines (cnt : ℤ) : ℕ → σ → LineBuffer → ℕ → ℕ → Option (σ × LineBuffer × ℕ)
  | 0, _, _, _, _ => none
  | fuel + 1, st, data, last, lineStart => do
    let lineEnd ← data.findEnd last fuel lineStart
    let c ← data.load lineEnd
    if c ≠ '\n'.toUInt8 ∧ cnt ≠ 0 ∧ lineStart ≠ 0 then
      let data ← data.store lineEnd 0
      let data ← data.ece391Strcpy fuel 0 lineStart
      some (st, data, last - lineStart)
    else
      let data ← data.store lineEnd 0
      let found ← data.search s sLen lineEnd fuel lineStart
      let st ← if found then calls.report fuel fname (data.ptr lineStart) st else some st
      if lineEnd + 1 ≥ last then some (st, data, 0)
      else scanLines cnt fuel st data last (lineEnd + 1)

def readChunks : ℕ → σ → LineBuffer → ℕ → Option (σ × Bool)
  | 0, _, _, _ => none
  | fuel + 1, st, data, last => do
    let (st, cnt, bytes) ← calls.ece391Read fd (bufSize - last) st
    if cnt = -1 then
      let st ← calls.ece391Fdputs fuel 1 (message (ascii "file read failed\n")) st
      some (st, false)
    else
      let data ← data.fill last bytes
      let (st, data, last) ← calls.scanLines s fname sLen cnt fuel st data (last + cnt.toNat) 0
      if cnt = 0 then some (st, true) else readChunks fuel st data last

/-- `data` is what the stack holds where the array lies. -/
def doOneFile (fuel : ℕ) (data : LineBuffer) (st : σ) : Option (σ × ℤ) := do
  let sLen ← ece391Strlen (fun i ↦ some (s i)) fuel 0
  let (st, fd) := calls.ece391Open fname st
  if fd = -1 then
    let st ← calls.ece391Fdputs fuel 1 (message (ascii "file open failed\n")) st
    some (st, -1)
  else
    let (st, ok) ← calls.readChunks s fname sLen fd fuel st data 0
    if ok = false then some (st, -1)
    else
      let (st, closed) := calls.ece391Close fd st
      if closed = -1 then
        let st ← calls.ece391Fdputs fuel 1 (message (ascii "file close failed\n")) st
        some (st, -1)
      else some (st, 0)

end DoOneFile

end UserCalls

end ApollOS
