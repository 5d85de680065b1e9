import ApollOS.Files.OpenFiles

namespace ApollOS

open Function SlotTable

variable {b : Build} {k k' : Kernel} {p : ℕ} {i j : Fin maxFiles} {call : FdCall} {r : ℤ}
  {bytes : List UInt8} {t : Slots maxFiles OpenFile} {u : Use maxFiles OpenFile}

/-- What a call that comes back has done to the descriptors of its process. -/
inductive Served (img : Image) (t : Slots maxFiles OpenFile) :
    FdCall → ℤ → Use maxFiles OpenFile → Prop
  | failed {call : FdCall} : Served img t call (-1) .keep
  | opened {filename : Option (ℕ → UInt8)} {dentry : Dentry} {ops : FileOps} {i : Fin maxFiles} :
    Found img filename dentry ops → IsLeast (free 2 t) i →
    Served img t (.openFd filename) i.val (.take i ⟨dentry.inodeNum, 0, ops⟩)
  | closed {i : Fin maxFiles} {f : OpenFile} : t i = some f → f.fileops.Closable →
    Served img t (.closeFd i.val) 0 (.release i)
  | read {fd nbytes r : ℤ} : Served img t (.readFd fd true nbytes) r .keep
  | moved {i : Fin maxFiles} {f : OpenFile} {pos : UInt32} {nbytes r : ℤ} : t i = some f →
    0 ≤ r → Served img t (.readFd i.val true nbytes) r (.change i { f with pos := pos })
  | written {fd nbytes r : ℤ} {buf : Option (ℕ → UInt8)} :
    Served img t (.writeFd fd buf nbytes) r .keep

namespace Kernel

theorem openFd_found {filename : Option (ℕ → UInt8)} {dentry : Dentry} {ops : FileOps}
    (hfound : Found b.image filename dentry ops) (hi : IsLeast (free 2 (k.opened p)) i) :
    (k.openFd b p filename).2 = i.val ∧
      (k.openFd b p filename).1.opened p =
        update (k.opened p) i (some ⟨dentry.inodeNum, 0, ops⟩) := by
  obtain ⟨name, rfl, hname, htype⟩ := hfound
  have herr := FileOps.openOp_found hname htype k.devices
  have hslot := freeSlot_eq_some_iff.mpr hi
  simp only [openFd, hname, hslot, htype, herr, ne_eq, not_true_eq_false, if_false, true_and]
  rw [opened_setFile]
  exact congrArg _ File.entry_opened

theorem openFd_failed {filename : Option (ℕ → UInt8)}
    (h : (∀ dentry ops, ¬ Found b.image filename dentry ops) ∨ free 2 (k.opened p) = ∅) :
    (k.openFd b p filename).2 = -1 ∧ (k.openFd b p filename).1.opened p = k.opened p := by
  cases filename with
  | none => exact ⟨rfl, rfl⟩
  | some name =>
    cases hname : readDentryByName b.image name with
    | none => simp only [openFd, hname, and_self]
    | some dentry =>
      cases hslot : k.freeSlot p with
      | none => simp only [openFd, hname, hslot, and_self]
      | some i =>
        have hleast := freeSlot_eq_some_iff.mp hslot
        cases htype : FileOps.ofType dentry.fileType with
        | none =>
          simp only [openFd, hname, hslot, htype, true_and]
          rw [opened_setFile, File.entry_setClosed, update_eq_self_iff]
          exact hleast.1.2.symm
        | some ops =>
          rcases h with h | h
          · exact absurd ⟨name, rfl, hname, htype⟩ (h dentry ops)
          · rw [h] at hleast
            exact hleast.1.elim

theorem fdCall_openFd {filename : Option (ℕ → UInt8)} (h : (k.openFd b p filename).2 = r) :
    k.fdCall b p (.openFd filename) = some ((k.openFd b p filename).1, r, []) := by
  rw [← h]
  rfl

theorem openFd_ne_iff {filename : Option (ℕ → UInt8)} :
    (k.openFd b p filename).2 ≠ -1 ↔
      (∃ dentry ops, Found b.image filename dentry ops) ∧ (free 2 (k.opened p)).Nonempty := by
  constructor
  · intro hret
    by_contra hno
    refine hret (openFd_failed ?_).1
    rw [← Set.not_nonempty_iff_eq_empty]
    by_contra hboth
    push Not at hboth
    exact hno hboth
  · intro h
    obtain ⟨⟨dentry, ops, hfound⟩, hfree⟩ := h
    cases hslot : k.freeSlot p with
    | none => exact absurd (freeSlot_eq_none_iff.mp hslot) hfree.ne_empty
    | some i =>
      have hret := (openFd_found hfound (freeSlot_eq_some_iff.mp hslot)).1
      omega

theorem openFd_served (filename : Option (ℕ → UInt8)) :
    ∃ u, Served b.image (k.opened p) (.openFd filename) (k.openFd b p filename).2 u ∧
      (k.openFd b p filename).1.opened p = u.apply (k.opened p) := by
  by_cases hfails : (∀ dentry ops, ¬ Found b.image filename dentry ops) ∨ free 2 (k.opened p) = ∅
  · obtain ⟨hret, hsame⟩ := openFd_failed hfails
    rw [hret]
    exact ⟨.keep, .failed, hsame⟩
  · push Not at hfails
    obtain ⟨⟨dentry, ops, hfound⟩, hfree⟩ := hfails
    cases hslot : k.freeSlot p with
    | none => exact absurd (freeSlot_eq_none_iff.mp hslot) hfree.ne_empty
    | some i =>
      have hleast := freeSlot_eq_some_iff.mp hslot
      obtain ⟨hret, hupd⟩ := openFd_found hfound hleast
      rw [hret]
      exact ⟨_, .opened hfound hleast, hupd⟩

theorem closeFd_served (fd : ℤ) :
    ∃ u, Served b.image (k.opened p) (.closeFd fd) (k.closeFd p fd).2 u ∧
      (k.closeFd p fd).1.opened p = u.apply (k.opened p) := by
  cases hlook : k.lookup p fd with
  | none =>
    simp only [closeFd, hlook]
    exact ⟨.keep, .failed, rfl⟩
  | some i =>
    obtain ⟨rfl, hsome⟩ := lookup_eq_some hlook
    obtain ⟨f, hf⟩ := Option.isSome_iff_exists.mp hsome
    have hops := (File.entry_eq_some hf).2.2.2
    simp only [closeFd, hlook]
    rcases FileOps.closeOp_eq ((k.pcb p).files i).fileops i k.devices with ⟨hclosable, herr⟩ | herr
    · rw [herr, if_pos rfl, opened_setFile, File.entry_setClosed]
      rw [hops] at hclosable
      exact ⟨.release i, .closed hf hclosable, rfl⟩
    · rw [herr, if_neg (by decide)]
      exact ⟨.keep, .failed, rfl⟩

theorem dirRead_moves (img : Image) (f : File) (nbytes : ℤ) : ∃ pos r bytes,
    dirRead img f nbytes = ({ f with pos := pos }, r, bytes) ∧ 0 ≤ r := by
  by_cases hend : f.pos ≥ img.numDirEntries
  · exact ⟨f.pos, 0, [], if_pos hend, le_rfl⟩
  · exact ⟨f.pos + 1, _, _, if_neg hend, Int.natCast_nonneg _⟩

theorem fileRead_moves (img : Image) (f : File) (nbytes : ℤ) :
    (∃ bytes, fileRead img f nbytes = (f, -1, bytes)) ∨ ∃ pos r bytes,
      fileRead img f nbytes = ({ f with pos := pos }, r, bytes) ∧ 0 ≤ r := by
  unfold fileRead
  split
  · exact .inl ⟨_, rfl⟩
  · split_ifs
    · exact .inl ⟨_, rfl⟩
    · exact .inr ⟨_, _, _, rfl, Int.natCast_nonneg _⟩

theorem readFd_served {fd nbytes : ℤ} {buf : Bool}
    (h : k.readFd b p fd buf nbytes = some (k', r, bytes)) :
    ∃ u, Served b.image (k.opened p) (.readFd fd buf nbytes) r u ∧
      k'.opened p = u.apply (k.opened p) := by
  cases buf with
  | false =>
    obtain ⟨rfl, rfl, -⟩ := h
    exact ⟨.keep, .failed, rfl⟩
  | true =>
    simp only [readFd, Bool.true_eq_false, if_false] at h
    cases hlook : k.lookup p fd with
    | none =>
      rw [hlook] at h
      obtain ⟨rfl, rfl, -⟩ := h
      exact ⟨.keep, .failed, rfl⟩
    | some i =>
      obtain ⟨rfl, hsome⟩ := lookup_eq_some hlook
      obtain ⟨f, hf⟩ := Option.isSome_iff_exists.mp hsome
      simp only [hlook] at h
      split at h
      · obtain ⟨⟨k₁, line⟩, hread, he⟩ := Option.map_eq_some_iff.mp h
        obtain ⟨rfl, -⟩ := Prod.mk.inj he
        have hpcb := (Local.terminalRead (S := ∅) hread).pcb p (Set.notMem_empty p)
        exact ⟨.keep, .read, opened_eq hpcb⟩
      · split_ifs at h
        obtain ⟨rfl, -⟩ := Prod.mk.inj (Option.some.inj h)
        exact ⟨.keep, .read, rfl⟩
      · obtain ⟨pos, s, read, hdir, hnonneg⟩ := dirRead_moves b.image ((k.pcb p).files i) nbytes
        rw [hdir] at h
        obtain ⟨rfl, rfl, -⟩ := h
        refine ⟨.change i { f with pos := pos }, .moved hf hnonneg, ?_⟩
        rw [opened_setFile, File.entry_setPos hf]
        rfl
      · rcases fileRead_moves b.image ((k.pcb p).files i) nbytes with
          ⟨read, hfile⟩ | ⟨pos, s, read, hfile, hnonneg⟩
        · rw [hfile] at h
          obtain ⟨rfl, rfl, -⟩ := h
          refine ⟨.keep, .failed, ?_⟩
          rw [opened_setFile]
          exact update_eq_self _ _
        · rw [hfile] at h
          obtain ⟨rfl, rfl, -⟩ := h
          refine ⟨.change i { f with pos := pos }, .moved hf hnonneg, ?_⟩
          rw [opened_setFile, File.entry_setPos hf]
          rfl
      · obtain ⟨rfl, rfl, -⟩ := h
        exact ⟨.keep, .failed, rfl⟩
      · obtain ⟨rfl, rfl, -⟩ := h
        exact ⟨.keep, .failed, rfl⟩

theorem writeFd_opened (fd : ℤ) (buf : Option (ℕ → UInt8)) (nbytes : ℤ) :
    (k.writeFd p fd buf nbytes).1.opened p = k.opened p := by
  unfold writeFd
  split
  · rfl
  · split
    · rfl
    · split <;> rfl

theorem fdCall_served (h : k.fdCall b p call = some (k', r, bytes)) :
    ∃ u, Served b.image (k.opened p) call r u ∧ k'.opened p = u.apply (k.opened p) := by
  cases call with
  | openFd filename =>
    obtain ⟨rfl, rfl, -⟩ := h
    exact openFd_served filename
  | closeFd fd =>
    obtain ⟨rfl, rfl, -⟩ := h
    exact closeFd_served fd
  | readFd fd buf nbytes => exact readFd_served h
  | writeFd fd buf nbytes =>
    obtain ⟨rfl, -⟩ := h
    exact ⟨.keep, .written, writeFd_opened fd buf nbytes⟩

end Kernel

def FdCall.fd : FdCall → Option ℤ
  | .openFd _ => none
  | .closeFd fd => some fd
  | .readFd fd _ _ => some fd
  | .writeFd fd _ _ => some fd

namespace Served

theorem legal (h : Served b.image t call r u) : u.Legal 2 t := by
  cases h with
  | failed => trivial
  | opened hfound hi => exact hi
  | closed hf => exact Option.isSome_of_eq_some hf
  | read => trivial
  | moved hf => exact Option.isSome_of_eq_some hf
  | written => trivial

theorem about_cases (h : Served b.image t call r u) (hu : u.About j) :
    (call = .closeFd j.val ∧ r = 0) ∨ ∃ nbytes, call = .readFd j.val true nbytes := by
  cases h with
  | failed => exact hu.elim
  | opened => exact hu.elim
  | closed =>
    obtain rfl := hu
    exact .inl ⟨rfl, rfl⟩
  | read => exact hu.elim
  | @moved i f pos nbytes =>
    obtain rfl := hu
    exact .inr ⟨nbytes, rfl⟩
  | written => exact hu.elim

theorem fd_of_about (h : Served b.image t call r u) (hu : u.About j) :
    call.fd = some (j.val : ℤ) := by
  rcases h.about_cases hu with ⟨rfl, -⟩ | ⟨nbytes, rfl⟩ <;> rfl

theorem apply_failed (h : Served b.image t call (-1) u) : u.apply t = t := by
  generalize hr : (-1 : ℤ) = r at h
  cases h with
  | failed => rfl
  | opened => omega
  | closed => omega
  | read => rfl
  | moved => omega
  | written => rfl

theorem inUse {filename : Option (ℕ → UInt8)}
    (h : Served b.image t (.openFd filename) (i.val : ℤ) u) : (u.apply t i).isSome := by
  generalize hr : (i.val : ℤ) = r at h
  cases h with
  | failed => omega
  | opened =>
    obtain rfl := Fin.ext (Int.ofNat_inj.mp hr)
    simp [Use.apply]

theorem eq_take {filename : Option (ℕ → UInt8)} {dentry : Dentry} {ops : FileOps}
    (h : Served b.image t (.openFd filename) (i.val : ℤ) u)
    (hfound : Found b.image filename dentry ops) : u = .take i ⟨dentry.inodeNum, 0, ops⟩ := by
  generalize hr : (i.val : ℤ) = r at h
  cases h with
  | failed => omega
  | opened hfound' =>
    obtain rfl := Fin.ext (Int.ofNat_inj.mp hr)
    obtain ⟨rfl, rfl⟩ := hfound.unique hfound'
    rfl

theorem ne_inUse {filename : Option (ℕ → UInt8)} (h : Served b.image t (.openFd filename) r u)
    (hi : (t i).isSome) : r ≠ i.val := by
  have hlegal := h.legal
  cases h with
  | failed => omega
  | opened =>
    have hne := Use.take_ne hlegal hi
    exact fun he ↦ hne (Fin.ext (Int.ofNat_inj.mp he))

theorem eq_closeFd (h : Served b.image t call r (.release i)) : call = .closeFd i.val ∧ r = 0 := by
  cases h with
  | closed => exact ⟨rfl, rfl⟩

theorem keeps {ops : FileOps} (h : Served b.image t call r u) (hops : ¬ ops.Closable)
    (hi : ∃ f, t i = some f ∧ f.fileops = ops) : ∃ f, u.apply t i = some f ∧ f.fileops = ops := by
  obtain ⟨f, hf, rfl⟩ := hi
  by_cases hu : u.About i
  · cases h with
    | failed => exact hu.elim
    | opened => exact hu.elim
    | closed hg hclosable =>
      obtain rfl := hu
      obtain rfl := Option.some.inj (hf.symm.trans hg)
      exact absurd hclosable hops
    | read => exact hu.elim
    | moved hg =>
      obtain rfl := hu
      obtain rfl := Option.some.inj (hf.symm.trans hg)
      exact ⟨_, update_self _ _ _, rfl⟩
    | written => exact hu.elim
  · exact ⟨f, (Use.apply_other h.legal (Option.isSome_of_eq_some hf) hu).trans hf, rfl⟩

end Served

/-- Descriptors 0 and 1 are the standard streams. -/
structure Standard (t : Slots maxFiles OpenFile) : Prop where
  stdin : ∃ f, t 0 = some f ∧ f.fileops = .stdin
  stdout : ∃ f, t 1 = some f ∧ f.fileops = .stdout

namespace Standard

theorem served (hs : Standard t) (h : Served b.image t call r u) : Standard (u.apply t) where
  stdin := h.keeps (by simp [FileOps.Closable]) hs.stdin
  stdout := h.keeps (by simp [FileOps.Closable]) hs.stdout

theorem not_closable (hs : Standard t) (hi : i.val < 2) :
    ∃ f, t i = some f ∧ ¬ f.fileops.Closable := by
  have hcases : i.val = 0 ∨ i.val = 1 := by omega
  rcases hcases with hzero | hone
  · obtain rfl : i = 0 := Fin.ext hzero
    obtain ⟨f, hf, hops⟩ := hs.stdin
    exact ⟨f, hf, by simp [hops, FileOps.Closable]⟩
  · obtain rfl : i = 1 := Fin.ext hone
    obtain ⟨f, hf, hops⟩ := hs.stdout
    exact ⟨f, hf, by simp [hops, FileOps.Closable]⟩

end Standard

structure Fresh (t : Slots maxFiles OpenFile) : Prop extends Standard t where
  rest : ∀ i : Fin maxFiles, 2 ≤ i.val → t i = none

theorem Fresh.installed {site : CallSite} {args : List UInt8} {mem : Memory} :
    Fresh ((k.installed b site p args mem).opened p) where
  stdin := by
    refine ⟨⟨((k.pcb p).files 0).inode, 0, .stdin⟩, ?_, rfl⟩
    simp [Kernel.opened, Kernel.installed, Kernel.initFiles, File.entry, File.isOpen, fileOpen]
  stdout := by
    refine ⟨⟨((k.pcb p).files 1).inode, 0, .stdout⟩, ?_, rfl⟩
    simp [Kernel.opened, Kernel.installed, Kernel.initFiles, File.entry, File.isOpen, fileOpen]
  rest i hi := by
    have hzero : i ≠ 0 := by
      rintro rfl
      exact absurd hi (by decide)
    have hone : i ≠ 1 := by
      rintro rfl
      exact absurd hi (by decide)
    simp [Kernel.opened, Kernel.installed, Kernel.initFiles, hzero, hone, File.entry, File.isOpen]

/-- The calls that are bound to fail: an unknown name or type, a full table, a number
that is no open descriptor, a NULL buffer, an operation that the descriptor does not
have, and closing a standard stream. -/
inductive Fails (img : Image) (t : Slots maxFiles OpenFile) : FdCall → Prop
  | notFound {filename : Option (ℕ → UInt8)} : (∀ dentry ops, ¬ Found img filename dentry ops) →
    Fails img t (.openFd filename)
  | tableFull {filename : Option (ℕ → UInt8)} : free 2 t = ∅ → Fails img t (.openFd filename)
  | closeBad {fd : ℤ} : BadFd t fd → Fails img t (.closeFd fd)
  | closeStream {i : Fin maxFiles} : i.val < 2 → Fails img t (.closeFd i.val)
  | readNull {fd nbytes : ℤ} : Fails img t (.readFd fd false nbytes)
  | readBad {fd nbytes : ℤ} {buf : Bool} : BadFd t fd → Fails img t (.readFd fd buf nbytes)
  | readUnsupported {i : Fin maxFiles} {f : OpenFile} {nbytes : ℤ} {buf : Bool} : t i = some f →
    ¬ f.fileops.Readable → Fails img t (.readFd i.val buf nbytes)
  | writeNull {fd nbytes : ℤ} : Fails img t (.writeFd fd none nbytes)
  | writeBad {fd nbytes : ℤ} {buf : Option (ℕ → UInt8)} : BadFd t fd →
    Fails img t (.writeFd fd buf nbytes)
  | writeUnsupported {i : Fin maxFiles} {f : OpenFile} {nbytes : ℤ} {buf : Option (ℕ → UInt8)} :
    t i = some f → ¬ f.fileops.Writable → Fails img t (.writeFd i.val buf nbytes)

namespace Kernel

theorem closeFd_bad {fd : ℤ} (h : BadFd (k.opened p) fd) : k.closeFd p fd = (k, -1) := by
  rw [closeFd, lookup_bad h]

theorem closeFd_unclosable {f : OpenFile} (hf : k.opened p i = some f)
    (hops : ¬ f.fileops.Closable) :
    (k.closeFd p i.val).2 = -1 ∧ (k.closeFd p i.val).1.opened p = k.opened p := by
  have hlook := lookup_open hf
  have hfile := (File.entry_eq_some hf).2.2.2
  rcases FileOps.closeOp_eq ((k.pcb p).files i).fileops i k.devices with ⟨hclosable, -⟩ | herr
  · rw [hfile] at hclosable
    exact absurd hclosable hops
  · simp only [closeFd, hlook]
    rw [herr, if_neg (by decide)]
    exact ⟨rfl, rfl⟩

theorem readFd_bad {fd nbytes : ℤ} {buf : Bool} (h : BadFd (k.opened p) fd) :
    k.readFd b p fd buf nbytes = some (k, -1, []) := by
  rw [readFd, lookup_bad h]
  exact ite_self _

theorem readFd_unsupported {nbytes : ℤ} {buf : Bool} {f : OpenFile} (hf : k.opened p i = some f)
    (hops : ¬ f.fileops.Readable) : k.readFd b p i.val buf nbytes = some (k, -1, []) := by
  have hfile := (File.entry_eq_some hf).2.2.2
  rw [readFd, lookup_open hf]
  simp only [hfile]
  cases hops' : f.fileops with
  | stdout => exact ite_self _
  | fail => exact ite_self _
  | stdin => simp [hops', FileOps.Readable] at hops
  | rtc => simp [hops', FileOps.Readable] at hops
  | dir => simp [hops', FileOps.Readable] at hops
  | file => simp [hops', FileOps.Readable] at hops

theorem writeFd_bad {fd nbytes : ℤ} {buf : Option (ℕ → UInt8)} (h : BadFd (k.opened p) fd) :
    k.writeFd p fd buf nbytes = (k, -1) := by
  cases buf with
  | none => rfl
  | some buf => simp only [writeFd, lookup_bad h]

theorem writeFd_unsupported {nbytes : ℤ} {buf : Option (ℕ → UInt8)} {f : OpenFile}
    (hf : k.opened p i = some f) (hops : ¬ f.fileops.Writable) :
    k.writeFd p i.val buf nbytes = (k, -1) := by
  have hfile := (File.entry_eq_some hf).2.2.2
  cases buf with
  | none => rfl
  | some buf =>
    simp only [writeFd, lookup_open hf, hfile]
    cases hops' : f.fileops with
    | stdout => simp [hops', FileOps.Writable] at hops
    | rtc => simp [hops', FileOps.Writable] at hops
    | stdin => rfl
    | dir => rfl
    | file => rfl
    | fail => rfl

end Kernel

theorem Fails.fdCall (hs : Standard (k.opened p)) (h : Fails b.image (k.opened p) call) :
    ∃ k', k.fdCall b p call = some (k', -1, []) ∧ k'.opened p = k.opened p := by
  cases h with
  | notFound hfound =>
    obtain ⟨hret, hsame⟩ := Kernel.openFd_failed (b := b) (.inl hfound)
    exact ⟨_, Kernel.fdCall_openFd hret, hsame⟩
  | tableFull hfull =>
    obtain ⟨hret, hsame⟩ := Kernel.openFd_failed (b := b) (.inr hfull)
    exact ⟨_, Kernel.fdCall_openFd hret, hsame⟩
  | closeBad hbad =>
    refine ⟨k, ?_, rfl⟩
    simp only [Kernel.fdCall, Kernel.closeFd_bad hbad]
  | @closeStream i hi =>
    obtain ⟨f, hf, hops⟩ := hs.not_closable hi
    obtain ⟨hret, hsame⟩ := Kernel.closeFd_unclosable hf hops
    exact ⟨(k.closeFd p i.val).1, by rw [← hret]; rfl, hsame⟩
  | readNull => exact ⟨k, rfl, rfl⟩
  | readBad hbad => exact ⟨k, Kernel.readFd_bad hbad, rfl⟩
  | readUnsupported hf hops => exact ⟨k, Kernel.readFd_unsupported hf hops, rfl⟩
  | writeNull => exact ⟨k, rfl, rfl⟩
  | writeBad hbad =>
    refine ⟨k, ?_, rfl⟩
    simp only [Kernel.fdCall, Kernel.writeFd_bad hbad]
  | writeUnsupported hf hops =>
    refine ⟨k, ?_, rfl⟩
    simp only [Kernel.fdCall, Kernel.writeFd_unsupported hf hops]

end ApollOS
