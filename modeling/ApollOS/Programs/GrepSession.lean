import ApollOS.Programs.GrepPieces

namespace ApollOS

open Function Fuel Lines Reader SlotTable

variable {b : Build} {k k' : Kernel} {p total : ℕ} {i : Fin maxFiles} {inode pos : UInt32}
  {screen : Console} {out : List (List UInt8)} {nbytes value : ℤ} {bytes name pat : List UInt8}
  {s fname : ℕ → UInt8} {data : LineBuffer} {dentry : Dentry}
  {held : Fin maxTerminals → List ℕ}

/-- The system calls of process `p`, as the kernel serves them. -/
def kernelCalls (b : Build) (p : ℕ) : UserCalls Kernel where
  ece391Open filename k := k.openFd b p (some filename)
  ece391Read fd n k := k.readFd b p fd true n
  ece391Write fd bytes k := (k.writeFd p fd (some (cstr bytes)) bytes.length).1
  ece391Close fd k := k.closeFd p fd

section Calls

theorem readFd_file (h : k.opened p i = some ⟨inode, pos, .file⟩)
    (hcall : k.readFd b p i.val true nbytes = some (k', value, bytes)) :
    k'.console = k.console ∧ ∀ j ≠ i, k'.opened p j = k.opened p j := by
  have hops : ((k.pcb p).files i).fileops = .file := (File.entry_eq_some h).2.2.2
  simp only [Kernel.readFd, Kernel.lookup_open h, hops, Bool.true_eq_false, if_false] at hcall
  obtain ⟨rfl, -⟩ := Prod.mk.inj (Option.some.inj hcall)
  refine ⟨rfl, fun j hj ↦ ?_⟩
  rw [Kernel.opened_setFile, update_of_ne hj]

theorem writeFd_stdout {e : OpenFile} (h : k.opened p i = some e) (he : e.fileops = .stdout)
    (hnul : 0 ∉ bytes) : (k.writeFd p i.val (some (cstr bytes)) bytes.length).1 =
      { k with console := k.console.puts bytes } := by
  have hops : ((k.pcb p).files i).fileops = .stdout := (File.entry_eq_some h).2.2.2.trans he
  simp only [Kernel.writeFd, Kernel.lookup_open h, hops]
  rw [terminalWrite_eq hnul]

theorem closeFd_file (h : k.opened p i = some ⟨inode, pos, .file⟩) :
    (k.closeFd p i.val).2 = 0 ∧ (k.closeFd p i.val).1.console = k.console := by
  have hops : ((k.pcb p).files i).fileops = .file := (File.entry_eq_some h).2.2.2
  have hfd : ¬ ((i.val : ℤ) < 0 ∨ (i.val : ℤ) > maxFiles) := by omega
  simp only [Kernel.closeFd, Kernel.lookup_open h, hops, FileOps.closeOp, if_neg hfd, if_true,
    true_and]
  rfl

theorem openFd_console (filename : Option (ℕ → UInt8)) :
    (k.openFd b p filename).1.console = k.console := by
  unfold Kernel.openFd
  split
  · rfl
  · split
    · rfl
    · split
      · rfl
      · dsimp only
        split
        · rfl
        · split_ifs
          · rfl
          · rfl

end Calls

/-- A process has asked for `total` bytes of a file, and what it wrote meanwhile is on the
screen. -/
structure Grepping (b : Build) (p : ℕ) (i : Fin maxFiles) (inode : UInt32) (screen : Console)
    (total : ℕ) (out : List (List UInt8)) (k : Kernel) : Prop where
  reading : Reading b p i inode total k
  stdout : ∃ e, k.opened p 1 = some e ∧ e.fileops = .stdout
  console : k.console = screen.puts out.flatten

namespace Grepping

theorem ne_stdout (h : Grepping b p i inode screen total out k) : 1 ≠ i := by
  rintro rfl
  obtain ⟨pos, hfile, -⟩ := h.reading.opened
  obtain ⟨e, hout, hops⟩ := h.stdout
  obtain rfl := Option.some.inj (hfile.symm.trans hout)
  cases hops

theorem read (h : Grepping b p i inode screen total out k) (hw : b.image.WellFormed)
    (hi : inode < b.image.numInodes) {n : ℕ} (hn : n ≤ bufSize) :
    ∃ k', (kernelCalls b p).ece391Read i.val n k =
      some (k', ((chunk (shownContent b.image inode) total n).length : ℤ),
        chunk (shownContent b.image inode) total n) ∧
      Grepping b p i inode screen (total + n) out k' := by
  have hbound : (n : ℤ) < 2 ^ 31 :=
    lt_of_le_of_lt (Int.ofNat_le.mpr hn) (show (bufSize : ℤ) < 2 ^ 31 by decide)
  obtain ⟨k', bytes, hcall, rfl, hreading⟩ := h.reading.readFd hw hi (Int.natCast_nonneg n) hbound
  rw [Int.toNat_natCast] at hcall hreading
  obtain ⟨pos, hopen, -⟩ := h.reading.opened
  obtain ⟨hconsole, hothers⟩ := readFd_file hopen hcall
  refine ⟨k', hcall, hreading, ?_, hconsole.trans h.console⟩
  rw [hothers 1 h.ne_stdout]
  exact h.stdout

theorem write (h : Grepping b p i inode screen total out k) (hnul : 0 ∉ bytes) :
    Grepping b p i inode screen total (out ++ [bytes])
      ((kernelCalls b p).ece391Write 1 bytes k) := by
  obtain ⟨e, hopen, hops⟩ := h.stdout
  have hwrite : (kernelCalls b p).ece391Write 1 bytes k =
      { k with console := k.console.puts bytes } := writeFd_stdout (i := 1) hopen hops hnul
  obtain ⟨⟨held, hf⟩, hp, hfile⟩ := h.reading
  have hsame := SameProcesses.io (k := k) (k.console.puts bytes) k.keyboard k.devices
  rw [hwrite]
  refine ⟨⟨⟨held, hf.congr hsame⟩, hsame.live_iff.mpr hp, hfile⟩, ⟨e, hopen, hops⟩, ?_⟩
  rw [List.flatten_append, List.flatten_singleton, Console.puts, Console.puts, h.console,
    List.foldl_append]
  rfl

theorem close (h : Grepping b p i inode screen total out k) :
    ((kernelCalls b p).ece391Close i.val k).2 = 0 ∧
      ((kernelCalls b p).ece391Close i.val k).1.console = screen.puts out.flatten := by
  obtain ⟨pos, hopen, -⟩ := h.reading.opened
  obtain ⟨hret, hconsole⟩ := closeFd_file hopen
  exact ⟨hret, hconsole.trans h.console⟩

/-- What `grep` relies on is what the kernel does. -/
theorem serves (hw : b.image.WellFormed) (hi : inode < b.image.numInodes) :
    Serves (kernelCalls b p) i.val (shownContent b.image inode)
      (Grepping b p i inode screen) where
  read _ h hn := h.read hw hi hn
  write hnul h := h.write hnul
  close h := by
    rw [h.close.1]
    decide

end Grepping

/-- A process that runs `grep` over a file has its hits on the screen at the end. -/
theorem grep_prints (hw : b.image.WellFormed) (hf : Forest k held) (hp : k.live p)
    (hstdout : ∃ e, k.opened p 1 = some e ∧ e.fileops = .stdout)
    (hfound : Found b.image (some fname) dentry .file) (hfree : (free 2 (k.opened p)).Nonempty)
    (hname : Points fname name) (hpat : Points s pat) (hne : pat ≠ [])
    (hguard : data bufSize ≠ '\n'.toUInt8) :
    ∃ k', Yields (fun fuel ↦ (kernelCalls b p).doOneFile s fname fuel data k) (k', 0) ∧
      k'.console = k.console.puts
        (reports name (grepHits pat (shownContent b.image dentry.inodeNum))).flatten := by
  obtain ⟨i, hslot⟩ : ∃ i, k.freeSlot p = some i := by
    cases hslot : k.freeSlot p with
    | none => exact absurd (Kernel.freeSlot_eq_none_iff.mp hslot) hfree.ne_empty
    | some i => exact ⟨i, rfl⟩
  have hleast := Kernel.freeSlot_eq_some_iff.mp hslot
  obtain ⟨hret, hopened⟩ := Kernel.openFd_found hfound hleast
  have hstays : 1 ≠ i := by
    rintro rfl
    exact absurd hleast.1.1 (by decide)
  have hreading : Reading b p i dentry.inodeNum 0 (k.openFd b p (some fname)).1 :=
    .opened_now hf hp hfound (Kernel.fdCall_openFd hret)
  have hstart : Grepping b p i dentry.inodeNum k.console 0 [] (k.openFd b p (some fname)).1 := by
    refine ⟨hreading, ?_, openFd_console _⟩
    rw [hopened, update_of_ne hstays]
    exact hstdout
  have hopen : (kernelCalls b p).ece391Open fname k =
      ((k.openFd b p (some fname)).1, (i.val : ℤ)) := Prod.ext rfl hret
  obtain ⟨k', total, hend, hyields⟩ := (Grepping.serves hw (inode_lt_of_found hw hfound)).doOneFile
    hname hpat hne (plain_shown _) hguard hopen (by omega) hstart
  exact ⟨_, hyields, hend.close.2⟩

section Sample

theorem notes_shown : shownContent sampleImage 1 = ascii "a b" ++ '\n'.toUInt8 :: [] := by decide

theorem grepHits_notes :
    grepHits (ascii "b") (shownContent sampleImage 1) = [ascii "a b"] := by
  have hin : ascii "b" <:+: ascii "a b" := ⟨ascii "a ", [], by decide⟩
  rw [notes_shown, grepHits, hits_line (by decide) (by decide) (by decide), hit, if_pos hin,
    ← grepHits, grepHits_nil (by decide)]
  rfl

/-- The first shell after boot looks for a letter in the text of the small file system. -/
theorem grep_prints_sample : ∃ k k', Boots sampleBuild sampleMachine k ∧
    Yields (fun fuel ↦ (kernelCalls sampleBuild 0).doOneFile (cstr (ascii "b"))
      (cstr (ascii "notes")) fuel blankBuffer k) (k', 0) ∧
    k'.console = k.console.puts (ascii "notes:a b\n") := by
  obtain ⟨k, hb⟩ := sample_boots
  have hlive := boots_live hb
  have hname : Points (cstr (ascii "notes")) (ascii "notes") := ⟨by decide, fun _ _ ↦ rfl⟩
  have hpat : Points (cstr (ascii "b")) (ascii "b") := ⟨by decide, fun _ _ ↦ rfl⟩
  obtain ⟨k', hyields, hconsole⟩ := grep_prints (b := sampleBuild) sampleImage_wellFormed
    (boots_forest hb) hlive (boots_fresh hb hlive).stdout notes_found ⟨2, (boots_free hb).1⟩ hname
    hpat (by decide) (show blankBuffer bufSize ≠ '\n'.toUInt8 by decide)
  refine ⟨k, k', hb, hyields, hconsole.trans ?_⟩
  have hnotes : grepHits (ascii "b") (shownContent sampleBuild.image 1) = [ascii "a b"] :=
    grepHits_notes
  have hinode : (Dentry.of (ascii "notes") 2 1).inodeNum = 1 := by decide
  rw [hinode, hnotes]
  rfl

end Sample

end ApollOS
