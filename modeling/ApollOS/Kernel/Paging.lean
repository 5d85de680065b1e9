import ApollOS.Kernel.State
import Mathlib.Tactic.Ring
import Mathlib.Order.Interval.Set.Basic

namespace ApollOS

def fourKb : ℕ := 4096
def fourMb : ℕ := 0x400000

def rwFlags : UInt32 := 0x87
def pageDirFlags : UInt32 := 0x83
def rwpFlags : UInt32 := 7

def vidMemLoc : ℕ := 0xB8
def termMem : ℕ := 0x6400000
def virtualStart : ℕ := 0x8000000
def virtualEnd : ℕ := 0x8400000
def physicalStart : ℕ := 0x800000
def executeStart : ℕ := 0x8048000

/-- `TERM_1_MEM`, `TERM_2_MEM` and `TERM_3_MEM`. -/
def termPage (t : Fin maxTerminals) : ℕ := termMem + (t.val + 1) * fourKb

def userBlock (pid : ℕ) : ℕ := physicalStart + pid * fourMb

variable (b : Build)

def initPaging (pg : Paging) : Paging :=
  { pg with
    pageDir := Function.update (Function.update (fun _ ↦ 2) 0 (b.pageTableAddr.toUInt32 ||| 3))
      1 (fourMb.toUInt32 ||| pageDirFlags)
    pageTable := fun i ↦
      let entry := (fourKb * i).toUInt32 ||| 2
      if i = vidMemLoc then entry ||| 3 else entry }

namespace Paging

variable (pg : Paging) (vAddr pAddr page : ℕ)

def remap : Paging :=
  { pg with pageDir := Function.update pg.pageDir (vAddr / fourMb) (pAddr.toUInt32 ||| rwFlags) }

def remapToPage : Paging :=
  { pg with
    pageDir := Function.update pg.pageDir (vAddr / fourMb) (b.userTableAddr.toUInt32 ||| rwpFlags)
    userTable := Function.update pg.userTable page (pAddr.toUInt32 ||| rwpFlags) }

def remapWithPageTable : Paging :=
  { pg with
    pageDir := Function.update pg.pageDir (vAddr / fourMb) (b.userTableAddr.toUInt32 ||| rwpFlags)
    userTable := Function.update pg.userTable 0 (pAddr.toUInt32 ||| rwpFlags) }

variable {b pg vAddr pAddr page} {e : ℕ}

theorem remap_pageDir_of_ne (he : e ≠ vAddr / fourMb) :
    (pg.remap vAddr pAddr).pageDir e = pg.pageDir e := by simp [remap, he]

theorem remap_pageDir_self :
    (pg.remap vAddr pAddr).pageDir (vAddr / fourMb) = pAddr.toUInt32 ||| rwFlags := by simp [remap]

theorem remapWithPageTable_pageDir_of_ne (he : e ≠ vAddr / fourMb) :
    (pg.remapWithPageTable b vAddr pAddr).pageDir e = pg.pageDir e := by
  simp [remapWithPageTable, he]

end Paging

/-- A physical address, and whether user mode may use it. -/
structure Translation where
  addr : ℕ
  user : Bool
  deriving DecidableEq, Repr

def present (e : UInt32) : Bool := e.toNat % 2 = 1
def userBit (e : UInt32) : Bool := e.toNat / 4 % 2 = 1
def largePage (e : UInt32) : Bool := e.toNat / 128 % 2 = 1

/-- The page table at a physical address, if one of the two lies there. -/
def tableAt (pg : Paging) (addr : ℕ) : Option Table :=
  if addr = b.pageTableAddr then some pg.pageTable
  else if addr = b.userTableAddr then some pg.userTable
  else none

/-- The address translation of the hardware, with 4 MB pages switched on. -/
def walk (pg : Paging) (v : ℕ) : Option Translation :=
  let pde := pg.pageDir (v / fourMb)
  if !present pde then none
  else if largePage pde then some ⟨pde.toNat / fourMb * fourMb + v % fourMb, userBit pde⟩
  else
    match tableAt b pg (pde.toNat / fourKb * fourKb) with
    | none => none
    | some table =>
      let pte := table (v / fourKb % 1024)
      if !present pte then none
      else some ⟨pte.toNat / fourKb * fourKb + v % fourKb, userBit pde && userBit pte⟩

/-- Bytes stored one after the other from a virtual address on. `none` is a page
fault. -/
def storeBytes (pg : Paging) : List UInt8 → ℕ → Memory → Option Memory
  | [], _, m => some m
  | x :: xs, v, m =>
    match walk b pg v with
    | none => none
    | some t => storeBytes pg xs (v + 1) (Function.update m (t.addr : ℤ) x)

variable {b} {pg : Paging} {v base flags : ℕ} {e : UInt32}

theorem toNat_entry {a : ℕ} {f : UInt32} (ha : a < 2 ^ 32) (h : a % fourKb = 0)
    (hf : f.toNat < fourKb) : (a.toUInt32 ||| f).toNat = a + f.toNat := by
  have ha' : a.toUInt32.toNat = a := by
    simpa using Nat.mod_eq_of_lt ha
  have hd : a = 2 ^ 12 * (a / 2 ^ 12) := by
    simp only [fourKb] at h
    omega
  rw [UInt32.toNat_or, ha', hd, ← Nat.two_pow_add_eq_or_of_lt (by simpa [fourKb] using hf)]

theorem walk_large (hd : (pg.pageDir (v / fourMb)).toNat = base + flags) (hb : base % fourMb = 0)
    (hf : flags < fourMb) (hp : flags % 2 = 1) (hs : flags / 128 % 2 = 1) :
    walk b pg v = some ⟨base + v % fourMb, decide (flags / 4 % 2 = 1)⟩ := by
  simp only [fourMb] at hd hb hf ⊢
  have h1 : present (pg.pageDir (v / 4194304)) = true := by
    simp only [present, hd, decide_eq_true_eq]
    omega
  have h2 : largePage (pg.pageDir (v / 4194304)) = true := by
    simp only [largePage, hd, decide_eq_true_eq]
    omega
  have h3 : userBit (pg.pageDir (v / 4194304)) = decide (flags / 4 % 2 = 1) := by
    simp only [userBit, hd, decide_eq_decide]
    omega
  have h4 : (base + flags) / 4194304 * 4194304 = base := by omega
  simp [walk, fourMb, h1, h2, h3, hd, h4]

theorem walk_table {table : Table} (hd : (pg.pageDir (v / fourMb)).toNat = base + flags)
    (hb : base % fourKb = 0) (hf : flags < fourKb) (hp : flags % 2 = 1)
    (hs : flags / 128 % 2 = 0) (ht : tableAt b pg base = some table) :
    walk b pg v =
      if present (table (v / fourKb % 1024)) then
        some ⟨(table (v / fourKb % 1024)).toNat / fourKb * fourKb + v % fourKb,
          decide (flags / 4 % 2 = 1) && userBit (table (v / fourKb % 1024))⟩
      else none := by
  simp only [fourKb, fourMb] at hd hb hf ⊢
  have h1 : present (pg.pageDir (v / 4194304)) = true := by
    simp only [present, hd, decide_eq_true_eq]
    omega
  have h2 : largePage (pg.pageDir (v / 4194304)) = false := by
    simp only [largePage, hd, decide_eq_false_iff_not]
    omega
  have h3 : userBit (pg.pageDir (v / 4194304)) = decide (flags / 4 % 2 = 1) := by
    simp only [userBit, hd, decide_eq_decide]
    omega
  have h4 : (base + flags) / 4096 * 4096 = base := by omega
  simp only [walk, fourKb, fourMb, h1, h2, h3, hd, h4, ht]
  by_cases hpte : present (table (v / 4096 % 1024)) = true <;> simp [hpte]

theorem walk_absent (hd : pg.pageDir (v / fourMb) = 2) : walk b pg v = none := by
  have habsent : present 2 = false := by decide
  simp only [walk, hd, habsent, Bool.not_false, if_true]

section UserTable

variable (hd : pg.pageDir (v / fourMb) = b.userTableAddr.toUInt32 ||| rwpFlags)

include hd

theorem walk_userTable :
    walk b pg v =
      if present (pg.userTable (v / fourKb % 1024)) then
        some ⟨(pg.userTable (v / fourKb % 1024)).toNat / fourKb * fourKb + v % fourKb,
          userBit (pg.userTable (v / fourKb % 1024))⟩
      else none := by
  have hent : (pg.pageDir (v / fourMb)).toNat = b.userTableAddr + 7 := by
    rw [hd, toNat_entry b.userTable_lt b.userTable_aligned (by decide)]
    rfl
  have htable : tableAt b pg b.userTableAddr = some pg.userTable := by
    rw [tableAt, if_neg (Ne.symm b.tables_ne), if_pos rfl]
  rw [walk_table hent b.userTable_aligned (by decide) (by decide) (by decide) htable]
  rfl

theorem walk_userTable_none (hpage : pg.userTable (v / fourKb % 1024) = 0) :
    walk b pg v = none := by
  have habsent : present 0 = false := by decide
  rw [walk_userTable hd, hpage, habsent, if_neg Bool.false_ne_true]

theorem walk_userTable_page {a : ℕ}
    (hpage : pg.userTable (v / fourKb % 1024) = a.toUInt32 ||| rwpFlags) (ha : a < 2 ^ 32)
    (ha' : a % fourKb = 0) : walk b pg v = some ⟨a + v % fourKb, true⟩ := by
  have hentry : (pg.userTable (v / fourKb % 1024)).toNat = a + 7 := by
    rw [hpage, toNat_entry ha ha' (by decide)]
    rfl
  simp only [fourKb] at ha'
  have hpresent : present (pg.userTable (v / fourKb % 1024)) = true := by
    rw [present, hentry, decide_eq_true_eq]
    omega
  have huser : userBit (pg.userTable (v / fourKb % 1024)) = true := by
    rw [userBit, hentry, decide_eq_true_eq]
    omega
  have haddr : (a + 7) / fourKb * fourKb = a := by
    simp only [fourKb]
    omega
  rw [walk_userTable hd, if_pos hpresent, hentry, haddr, huser]

end UserTable

end ApollOS
