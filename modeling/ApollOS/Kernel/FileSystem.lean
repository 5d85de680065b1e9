import Mathlib.Algebra.Group.Nat.Defs
import Mathlib.Data.Nat.Notation
import Mathlib.Data.Int.Notation

namespace ApollOS

def ascii (s : String) : List UInt8 := s.toList.map fun c ↦ UInt8.ofNat c.toNat

def cstr (s : List UInt8) (i : ℕ) : UInt8 := s.getD i 0

def strncmpFrom (s1 s2 : ℕ → UInt8) : ℕ → ℕ → ℤ
  | 0, _ => 0
  | n + 1, i =>
    if s1 i ≠ s2 i ∨ s1 i = 0 then (s1 i).toInt8.toInt - (s2 i).toInt8.toInt
    else strncmpFrom s1 s2 n (i + 1)

def strncmp (s1 s2 : ℕ → UInt8) (n : ℕ) : ℤ := strncmpFrom s1 s2 n 0

/-- The bytes `strncpy` stores: the source up to its NUL, padded to `n` bytes. -/
def strncpy (src : ℕ → UInt8) (n : ℕ) : List UInt8 :=
  let copied := ((List.range n).map src).takeWhile (· ≠ 0)
  copied ++ List.replicate (n - copied.length) 0

def le32 (bytes : ℕ → UInt8) (i : ℕ) : UInt32 :=
  (bytes i).toUInt32 ||| (bytes (i + 1)).toUInt32 <<< 8 ||| (bytes (i + 2)).toUInt32 <<< 16 |||
    (bytes (i + 3)).toUInt32 <<< 24

def fileNameLength : ℕ := 32

/-- A directory entry, as the memory from its first byte on: 32 bytes of name,
the type, the inode number and reserved bytes. -/
structure Dentry where
  bytes : ℕ → UInt8

def Dentry.fileName (d : Dentry) : ℕ → UInt8 := d.bytes
def Dentry.fileType (d : Dentry) : UInt32 := le32 d.bytes 32
def Dentry.inodeNum (d : Dentry) : UInt32 := le32 d.bytes 36

structure Inode where
  length : UInt32
  dataBlockNum : ℕ → UInt32

/-- The file system image that the boot loader leaves in memory. It is never
written; an index past one of its arrays finds whatever lies there. -/
structure Image where
  numDirEntries : UInt32
  numInodes : UInt32
  numDataBlocks : UInt32
  dentries : ℕ → Dentry
  inodes : ℕ → Inode
  dataBlocks : ℕ → ℕ → UInt8

/-- The image as `init_rofs` finds it in memory: the boot block, from 64 on its directory
entries, then a block for each inode, then the data blocks. -/
def initRofs (mem : ℤ → UInt8) (base : UInt32) : Image :=
  let byte (offset : ℕ) : UInt8 := mem ((base.toNat + offset) % 2 ^ 32 : ℕ)
  let numInodes := le32 byte 4
  { numDirEntries := le32 byte 0
    numInodes := numInodes
    numDataBlocks := le32 byte 8
    dentries := fun i ↦ ⟨fun j ↦ byte (64 + (i * 64 + j))⟩
    inodes := fun i ↦
      ⟨le32 byte (4096 + i * 4096), fun j ↦ le32 byte (4096 + (i * 4096 + (4 + j * 4)))⟩
    dataBlocks := fun i j ↦ byte (4096 + (numInodes.toNat * 4096 + (i * 4096 + j))) }

variable (img : Image)

def readDentryByName (fname : ℕ → UInt8) : Option Dentry :=
  ((List.range img.numDirEntries.toNat).find? fun i ↦
    strncmp fname (img.dentries i).fileName fileNameLength == 0).map img.dentries

def readDentryByIndex (index : UInt32) : Option Dentry :=
  if index ≥ img.numDirEntries then none else some (img.dentries index.toNat)

def fileByte (node : Inode) (j : ℕ) : UInt8 :=
  img.dataBlocks (node.dataBlockNum (j / 4096)).toNat (j % 4096)

/-- The bytes that `read_data` stores in the buffer, one for each unit of the
count it returns; `none` is its return value -1. -/
def readData (inode offset length : UInt32) : Option (List UInt8) :=
  if inode ≥ img.numInodes then none
  else
    let node := img.inodes inode.toNat
    if offset > node.length then none
    else
      let length := if offset + length > node.length then node.length - offset else length
      some ((List.range length.toNat).map fun i ↦ fileByte img node ((i + offset.toNat) % 2 ^ 32))

/-- A buffer after `read_data` into it; a failed call leaves it as it was. -/
def readInto (inode offset : UInt32) (buffer : List UInt8) : List UInt8 :=
  let stored := (readData img inode offset buffer.length.toUInt32).getD []
  stored ++ buffer.drop stored.length

end ApollOS
