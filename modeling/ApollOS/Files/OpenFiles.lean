import ApollOS.Foundation.SlotTable
import ApollOS.Process.ProcessForest

namespace ApollOS

open Function SlotTable

structure OpenFile where
  inode : UInt32
  pos : UInt32
  fileops : FileOps
  deriving DecidableEq, Repr

def File.entry (f : File) : Option OpenFile :=
  if f.isOpen then some ⟨f.inode, f.pos, f.fileops⟩ else none

def Kernel.opened (k : Kernel) (p : ℕ) : Slots maxFiles OpenFile :=
  fun i ↦ ((k.pcb p).files i).entry

def Found (img : Image) (filename : Option (ℕ → UInt8)) (dentry : Dentry) (ops : FileOps) : Prop :=
  ∃ name, filename = some name ∧ readDentryByName img name = some dentry ∧
    FileOps.ofType dentry.fileType = some ops

theorem Found.unique {img : Image} {filename : Option (ℕ → UInt8)} {d d' : Dentry}
    {ops ops' : FileOps} (h : Found img filename d ops) (h' : Found img filename d' ops') :
    d = d' ∧ ops = ops' := by
  obtain ⟨name, rfl, hname, htype⟩ := h
  obtain ⟨name', he, hname', htype'⟩ := h'
  obtain rfl := Option.some.inj he
  obtain rfl := Option.some.inj (hname.symm.trans hname')
  exact ⟨rfl, Option.some.inj (htype.symm.trans htype')⟩

def BadFd (t : Slots maxFiles OpenFile) (fd : ℤ) : Prop :=
  ∀ i : Fin maxFiles, fd = i.val → t i = none

namespace FileOps

def Closable (ops : FileOps) : Prop := ops = .rtc ∨ ops = .dir ∨ ops = .file

def Readable (ops : FileOps) : Prop := ops ≠ .stdout ∧ ops ≠ .fail

def Writable (ops : FileOps) : Prop := ops = .stdout ∨ ops = .rtc

theorem openOp_found {img : Image} {name : ℕ → UInt8} {dentry : Dentry} {ops : FileOps}
    (hname : readDentryByName img name = some dentry) (htype : ofType dentry.fileType = some ops)
    (d : Devices) : (ops.openOp img name d).2 = 0 := by
  unfold ofType at htype
  split_ifs at htype with hrtc hdir hfile
  · obtain rfl := Option.some.inj htype
    rfl
  · obtain rfl := Option.some.inj htype
    simp [openOp, openNamed, hname, hdir]
  · obtain rfl := Option.some.inj htype
    simp [openOp, openNamed, hname, hfile]

theorem closeOp_eq (ops : FileOps) (i : Fin maxFiles) (d : Devices) :
    (ops.Closable ∧ (ops.closeOp i.val d).2 = 0) ∨ (ops.closeOp i.val d).2 = -1 := by
  have hle : ¬ ((i.val : ℤ) < 0 ∨ (i.val : ℤ) > maxFiles) := by omega
  cases ops with
  | stdin => exact .inr rfl
  | stdout => exact .inr rfl
  | rtc => exact .inl ⟨.inl rfl, rfl⟩
  | dir => exact .inl ⟨.inr (.inl rfl), if_neg hle⟩
  | file => exact .inl ⟨.inr (.inr rfl), if_neg hle⟩
  | fail => exact .inr rfl

end FileOps

namespace File

variable {f : File}

theorem isOpen_setOpen : f.setOpen.isOpen = true := by
  have hbit : (f.flags ||| fileOpen) &&& fileOpen = fileOpen := by
    ext i
    simp only [BitVec.getElem_and, BitVec.getElem_or]
    cases fileOpen[i] <;> simp
  simp only [isOpen, setOpen, hbit]
  decide

theorem isOpen_setClosed : f.setClosed.isOpen = false := by
  have hbit : f.flags &&& ~~~fileOpen &&& fileOpen = 0#32 := by
    ext i
    simp only [BitVec.getElem_and, BitVec.getElem_not, BitVec.getElem_zero]
    cases fileOpen[i] <;> simp
  simp [isOpen, setClosed, hbit]

theorem entry_setClosed : f.setClosed.entry = none := by
  rw [entry, isOpen_setClosed]
  rfl

theorem entry_opened {inode pos : UInt32} {ops : FileOps} :
    { f.setOpen with inode := inode, pos := pos, fileops := ops }.entry = some ⟨inode, pos, ops⟩ :=
  if_pos (isOpen_setOpen (f := f))

theorem isSome_entry : f.entry.isSome ↔ f.isOpen = true := by
  rw [entry]
  split_ifs with hopen <;> simp [hopen]

theorem entry_eq_none : f.entry = none ↔ f.isOpen = false := by
  rw [entry]
  split_ifs with hopen <;> simp [hopen]

theorem entry_eq_some {e : OpenFile} (h : f.entry = some e) :
    f.isOpen = true ∧ f.inode = e.inode ∧ f.pos = e.pos ∧ f.fileops = e.fileops := by
  rw [entry] at h
  split_ifs at h with hopen
  obtain rfl := Option.some.inj h
  exact ⟨hopen, rfl, rfl, rfl⟩

theorem entry_setPos {e : OpenFile} (h : f.entry = some e) (pos : UInt32) :
    { f with pos := pos }.entry = some { e with pos := pos } := by
  obtain ⟨hopen, hinode, -, hops⟩ := entry_eq_some h
  rw [← hinode, ← hops]
  exact if_pos hopen

end File

namespace Kernel

variable {b : Build} {k k' : Kernel} {p : ℕ} {i : Fin maxFiles} {fd : ℤ} {f : File} {e : OpenFile}

theorem opened_setFile : (k.setFile p i f).opened p = update (k.opened p) i f.entry := by
  funext j
  by_cases hj : j = i
  · subst hj
    simp [opened, setFile, setPcb]
  · simp [opened, setFile, setPcb, hj]

theorem opened_eq (h : k'.pcb p = k.pcb p) : k'.opened p = k.opened p := by
  funext i
  rw [opened, h]
  rfl

theorem lookup_eq_some (h : k.lookup p fd = some i) : fd = i.val ∧ (k.opened p i).isSome := by
  unfold lookup at h
  dsimp only at h
  split_ifs at h with hfd hopen
  obtain rfl := Option.some.inj h
  exact ⟨(Int.toNat_of_nonneg hfd.1).symm, File.isSome_entry.mpr hopen⟩

theorem lookup_open (h : k.opened p i = some e) : k.lookup p i.val = some i := by
  have hopen : ((k.pcb p).files i).isOpen = true := (File.entry_eq_some h).1
  have hfd : (0 : ℤ) ≤ i.val ∧ (i.val : ℤ) < maxFiles := by omega
  simp [lookup, hfd, hopen]

theorem lookup_bad (h : BadFd (k.opened p) fd) : k.lookup p fd = none := by
  cases hlook : k.lookup p fd with
  | none => rfl
  | some i =>
    obtain ⟨hfd, hsome⟩ := lookup_eq_some hlook
    rw [h i hfd] at hsome
    cases hsome

theorem freeSlot_eq_some_iff : k.freeSlot p = some i ↔ IsLeast (free 2 (k.opened p)) i := by
  rw [freeSlot, find?_finRange_eq_some_iff]
  have hset : {i : Fin maxFiles | (decide (2 ≤ i.val) && !((k.pcb p).files i).isOpen) = true} =
      free 2 (k.opened p) := by
    ext j
    simp [free, opened, File.entry_eq_none]
  rw [hset]

theorem freeSlot_eq_none_iff : k.freeSlot p = none ↔ free 2 (k.opened p) = ∅ := by
  rw [freeSlot, List.find?_eq_none, Set.eq_empty_iff_forall_notMem]
  refine forall_congr' fun i ↦ ?_
  simp [free, opened, File.entry_eq_none]

end Kernel

end ApollOS
