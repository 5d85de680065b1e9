import ApollOS.Kernel.Devices
import ApollOS.Kernel.Keyboard

namespace ApollOS

def rtcType : UInt32 := 0
def dirType : UInt32 := 1
def fileType : UInt32 := 2

/-- What `file_read` makes of a byte: only visible ones, newline and tab are kept. -/
def sanitize (c : UInt8) : UInt8 :=
  if (c < 32 ∨ c > 126) ∧ c ≠ 10 ∧ c ≠ 9 then 32 else c

def File.setOpen (f : File) : File := { f with flags := f.flags ||| fileOpen }
def File.setClosed (f : File) : File := { f with flags := f.flags &&& ~~~fileOpen }

namespace FileOps

/-- `file_open` and `dir_open`, which look the name up once more. -/
def openNamed (img : Image) (type : UInt32) (filename : ℕ → UInt8) : ℤ :=
  match readDentryByName img filename with
  | none => -1
  | some dentry => if dentry.fileType ≠ type then -1 else 0

def openOp (img : Image) (ops : FileOps) (filename : ℕ → UInt8) (d : Devices) : Devices × ℤ :=
  match ops with
  | .stdin => (d, 0)
  | .stdout => (d, 0)
  | .rtc => (d.rtcOpen, 0)
  | .dir => (d, openNamed img dirType filename)
  | .file => (d, openNamed img fileType filename)
  | .fail => (d, -1)

def closeOp (ops : FileOps) (fd : ℤ) (d : Devices) : Devices × ℤ :=
  match ops with
  | .rtc => (d.rtcClose, 0)
  | .dir => (d, if fd < 0 ∨ fd > maxFiles then -1 else 0)
  | .file => (d, if fd < 0 ∨ fd > maxFiles then -1 else 0)
  | .stdin => (d, -1)
  | .stdout => (d, -1)
  | .fail => (d, -1)

def ofType (type : UInt32) : Option FileOps :=
  if type = rtcType then some .rtc
  else if type = dirType then some .dir
  else if type = fileType then some .file
  else none

end FileOps

/-- `file_read` on an open file: what becomes of it, the return value and the
bytes stored in the buffer. -/
def fileRead (img : Image) (f : File) (nbytes : ℤ) : File × ℤ × List UInt8 :=
  match readData img f.inode f.pos (UInt32.ofInt nbytes) with
  | none => (f, -1, [])
  | some bytes =>
    -- The count is an `int32_t` and can be negative.
    if bytes.length ≥ 2 ^ 31 then (f, -1, bytes)
    else ({ f with pos := f.pos + bytes.length.toUInt32 }, bytes.length, bytes.map sanitize)

/-- `dir_read` on an open directory. The name is measured by `strlen` but never
taken to be longer than the field. -/
def dirRead (img : Image) (f : File) (nbytes : ℤ) : File × ℤ × List UInt8 :=
  if f.pos ≥ img.numDirEntries then (f, 0, [])
  else
    let name := (img.dentries f.pos.toNat).fileName
    let copyLength := if nbytes > fileNameLength then (fileNameLength : ℤ) else nbytes
    ({ f with pos := f.pos + 1 },
      (((List.range fileNameLength).map name).takeWhile (· ≠ 0)).length,
      strncpy name (UInt32.ofInt copyLength).toNat)

/-- `rtc_write`: the frequency is the first word of the buffer. -/
def rtcWrite (d : Devices) (buf : ℕ → UInt8) (nbytes : ℤ) : Devices × ℤ :=
  if nbytes < 4 then (d, -1)
  else
    let rate := rtcRate (le32 buf 0).toInt32
    ({ d with rtcRegA := d.rtcRegA &&& rtcSetRate ||| rate.toUInt8 }, 0)

/-- The system calls on descriptors. Of the buffer that `read` is given it only
matters whether it is NULL; the other pointers are NULL or lead to bytes. -/
inductive FdCall
  | openFd (filename : Option (ℕ → UInt8))
  | closeFd (fd : ℤ)
  | readFd (fd : ℤ) (buf : Bool) (nbytes : ℤ)
  | writeFd (fd : ℤ) (buf : Option (ℕ → UInt8)) (nbytes : ℤ)

namespace Kernel

variable (b : Build) (k : Kernel) (p : ℕ)

def setFile (i : Fin maxFiles) (f : File) : Kernel :=
  k.setPcb p fun pcb ↦ { pcb with files := Function.update pcb.files i f }

/-- The open file behind a descriptor; `none` for one that `read`, `write` and
`close` turn down. -/
def lookup (fd : ℤ) : Option (Fin maxFiles) :=
  if h : 0 ≤ fd ∧ fd < maxFiles then
    let i : Fin maxFiles := ⟨fd.toNat, by omega⟩
    if ((k.pcb p).files i).isOpen then some i else none
  else none

def freeSlot : Option (Fin maxFiles) :=
  (List.finRange maxFiles).find? fun i ↦ 2 ≤ i.val && !((k.pcb p).files i).isOpen

def openFd (filename : Option (ℕ → UInt8)) : Kernel × ℤ :=
  match filename with
  | none => (k, -1)
  | some filename =>
    match readDentryByName b.image filename with
    | none => (k, -1)
    | some dentry =>
      match k.freeSlot p with
      | none => (k, -1)
      | some i =>
        let f := { ((k.pcb p).files i).setOpen with pos := 0 }
        match FileOps.ofType dentry.fileType with
        | none => (k.setFile p i f.setClosed, -1)
        | some ops =>
          let f := { f with fileops := ops }
          let (devices, err) := ops.openOp b.image filename k.devices
          let k := { k with devices := devices }
          if err ≠ 0 then (k.setFile p i f.setClosed, -1)
          else (k.setFile p i { f with inode := dentry.inodeNum }, i.val)

def closeFd (fd : ℤ) : Kernel × ℤ :=
  match k.lookup p fd with
  | none => (k, -1)
  | some i =>
    let f := (k.pcb p).files i
    let (devices, err) := f.fileops.closeOp fd k.devices
    let k := { k with devices := devices }
    (if err = 0 then k.setFile p i f.setClosed else k, err)

/-- The system call `read`: the new state, the return value and the bytes stored
from the start of the buffer. `none` while the caller spins. -/
def readFd (fd : ℤ) (buf : Bool) (nbytes : ℤ) : Option (Kernel × ℤ × List UInt8) :=
  if buf = false then some (k, -1, [])
  else
    match k.lookup p fd with
    | none => some (k, -1, [])
    | some i =>
      let f := (k.pcb p).files i
      match f.fileops with
      | .stdin => (k.terminalRead nbytes).map fun (k, bytes) ↦ (k, bytes.length, bytes)
      | .rtc =>
        if k.devices.intOccur then
          some ({ k with devices := { k.devices with intOccur := false } }, 0, [])
        else none
      | .dir =>
        let (f, r) := dirRead b.image f nbytes
        some (k.setFile p i f, r)
      | .file =>
        let (f, r) := fileRead b.image f nbytes
        some (k.setFile p i f, r)
      | .stdout => some (k, -1, [])
      | .fail => some (k, -1, [])

def writeFd (fd : ℤ) (buf : Option (ℕ → UInt8)) (nbytes : ℤ) : Kernel × ℤ :=
  match buf with
  | none => (k, -1)
  | some buf =>
    match k.lookup p fd with
    | none => (k, -1)
    | some i =>
      match ((k.pcb p).files i).fileops with
      | .stdout => k.terminalWrite buf nbytes
      | .rtc =>
        let (devices, r) := rtcWrite k.devices buf nbytes
        ({ k with devices := devices }, r)
      | .stdin => (k, -1)
      | .dir => (k, -1)
      | .file => (k, -1)
      | .fail => (k, -1)

def fdCall (call : FdCall) : Option (Kernel × ℤ × List UInt8) :=
  match call with
  | .openFd filename =>
    let (k, r) := k.openFd b p filename
    some (k, r, [])
  | .closeFd fd =>
    let (k, r) := k.closeFd p fd
    some (k, r, [])
  | .readFd fd buf nbytes => k.readFd b p fd buf nbytes
  | .writeFd fd buf nbytes =>
    let (k, r) := k.writeFd p fd buf nbytes
    some (k, r, [])

end Kernel

end ApollOS
