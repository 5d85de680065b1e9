import ApollOS.Files.DirectoryReads
import ApollOS.Programs.SharedMachine

namespace ApollOS

open Function Fuel Runs Reader SlotTable FixedField Lines

variable {b : Build} {m : Machine} {s : StackUse} {start k k₀ : Kernel} {p : ℕ}
  {xs : List Occurrence} {table : Slots maxFiles OpenFile} {args text name : List UInt8}
  {out : List (List UInt8)} {others : ℕ → Kernel → List Occurrence} {st : Sharing}
  {i : Fin maxFiles} {inode : UInt32} {dentry : Dentry} {ops : FileOps} (behind : ℕ → UInt8)
  {status : ℤ} {f g : ℕ → UInt8} {img : Image}

theorem ne_stdout {f e : OpenFile} (hopen : table i = some f) (hf : f.fileops ≠ .stdout)
    (hstdout : table 1 = some e) (he : e.fileops = .stdout) : 1 ≠ i := by
  rintro rfl
  obtain rfl := Option.some.inj (hopen.symm.trans hstdout)
  exact hf he

theorem free_ne_stdout (h : IsLeast (free 2 table) i) : 1 ≠ i := by
  rintro rfl
  exact absurd h.1.1 (by decide)

/-- The process has asked for `total` bytes of a file that it has open. -/
inductive ReadsFile (b : Build) (s : StackUse) (start : Kernel) (p : ℕ) (args : List UInt8)
    (others : ℕ → Kernel → List Occurrence) (i : Fin maxFiles) (inode : UInt32) (total : ℕ) :
    List (List UInt8) → Sharing → Prop
  | mk {table : Slots maxFiles OpenFile} {out : List (List UInt8)} {st : Sharing} {pos : UInt32}
      {e : OpenFile} : Shares b s start p args others table out st →
    table i = some ⟨inode, pos, .file⟩ →
    pos.toNat = position (shownContent b.image inode) total →
    table 1 = some e → e.fileops = .stdout → ReadsFile b s start p args others i inode total out st

namespace ReadsFile

variable {total n : ℕ} {bytes : List UInt8}

theorem opened {e : OpenFile} (hleast : IsLeast (free 2 table) i) (hstdout : table 1 = some e)
    (he : e.fileops = .stdout)
    (h : Shares b s start p args others (update table i (some ⟨inode, 0, .file⟩)) out st) :
    ReadsFile b s start p args others i inode 0 out st := by
  refine .mk h (update_self _ _ _) ?_ ?_ he
  · simp [position]
  · rw [update_of_ne (free_ne_stdout hleast)]
    exact hstdout

theorem read (h : ReadsFile b s start p args others i inode total out st)
    (hl : Loadable b.image shellCommand) (hw : b.image.WellFormed)
    (hinode : inode < b.image.numInodes) (hn : n ≤ bufSize) : ∃ st',
      (sharedCalls b s p behind others).ece391Read i.val n st =
        some (st', ((chunk (shownContent b.image inode) total n).length : ℤ),
          chunk (shownContent b.image inode) total n) ∧
      ReadsFile b s start p args others i inode (total + n) out st' := by
  cases h with
  | @mk table _ _ pos e hshares hopen hpos hstdout he =>
    obtain ⟨st', pos', hread, hpos', hshares'⟩ :=
      hshares.reads_file behind hl hw hinode hn hopen hpos
    refine ⟨st', hread, .mk hshares' (update_self _ _ _) hpos' ?_ he⟩
    rw [update_of_ne (ne_stdout hopen (by rintro ⟨⟩) hstdout he)]
    exact hstdout

theorem write (h : ReadsFile b s start p args others i inode total out st)
    (hl : Loadable b.image shellCommand) (hnul : 0 ∉ bytes) : ∃ st',
      (sharedCalls b s p behind others).ece391Write 1 bytes st = (st', (bytes.length : ℤ)) ∧
      ReadsFile b s start p args others i inode total (out ++ [bytes]) st' := by
  cases h with
  | mk hshares hopen hpos hstdout he =>
    obtain ⟨st', hwrite, hshares'⟩ := hshares.writes behind hl hstdout he hnul
    exact ⟨st', hwrite, .mk hshares' hopen hpos hstdout he⟩

theorem close (h : ReadsFile b s start p args others i inode total out st)
    (hl : Loadable b.image shellCommand) : ∃ st' table,
      (sharedCalls b s p behind others).ece391Close i.val st = (st', 0) ∧
      Shares b s start p args others table out st' := by
  cases h with
  | @mk table _ _ pos e hshares hopen hpos hstdout he =>
    have h' := hshares.interlude hl
    obtain ⟨hret, hconsole⟩ := closeFd_file (h'.opened ▸ hopen)
    refine ⟨{ st.interlude b s p others with
      kernel := ((st.interlude b s p others).kernel.closeFd p i.val).1 },
      ((st.interlude b s p others).kernel.closeFd p i.val).1.opened p,
      (hshares.ece391Close_eq behind hl i.val).trans (Prod.ext rfl hret), ?_⟩
    have hcall : (st.interlude b s p others).kernel.fdCall b p (.closeFd i.val) =
        some (((st.interlude b s p others).kernel.closeFd p i.val).1, 0, []) := by
      rw [Kernel.fdCall, ← hret]
    exact h'.called_silently hl hcall rfl hconsole h'.written

end ReadsFile

/-- The names in a directory, one after the other. -/
def Image.names (img : Image) : List (List UInt8) :=
  (List.range img.numDirEntries.toNat).map fun j ↦ (img.dentries j).name

/-- What has been copied of a directory, and what is left of it. -/
inductive CopiesDir (b : Build) (s : StackUse) (start : Kernel) (p : ℕ) (args : List UInt8)
    (others : ℕ → Kernel → List Occurrence) (i : Fin maxFiles) (inode : UInt32) :
    List (List UInt8) → List (List UInt8) → Sharing → Prop
  | mk {table : Slots maxFiles OpenFile} {out : List (List UInt8)} {st : Sharing} {pos : UInt32}
      {e : OpenFile} : Shares b s start p args others table out st →
    table i = some ⟨inode, pos, .dir⟩ → pos.toNat ≤ b.image.numDirEntries.toNat →
    table 1 = some e → e.fileops = .stdout →
    CopiesDir b s start p args others i inode (b.image.names.drop pos.toNat) out st

theorem CopiesDir.opened {e : OpenFile} (hleast : IsLeast (free 2 table) i)
    (hstdout : table 1 = some e) (he : e.fileops = .stdout)
    (h : Shares b s start p args others (update table i (some ⟨inode, 0, .dir⟩)) out st) :
    CopiesDir b s start p args others i inode b.image.names out st := by
  have hzero : (0 : UInt32).toNat ≤ b.image.numDirEntries.toNat := Nat.zero_le _
  refine .mk h (update_self _ _ _) hzero ?_ he
  rw [update_of_ne (free_ne_stdout hleast)]
  exact hstdout

section Programs

theorem HoldsArgs.congr {k k' : Kernel} (h : HoldsArgs k p args)
    (hsame : (k'.pcb p).args = (k.pcb p).args) : HoldsArgs k' p args :=
  ⟨hsame ▸ h.length, hsame ▸ h.text, h.nonzero⟩

end Programs

section Sample

end Sample

end ApollOS
