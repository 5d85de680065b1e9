import ApollOS.Kernel.System

namespace ApollOS

open Function

/-- Two states that agree on the processes, the page tables and the kernel stack. -/
structure SameProcesses (k k' : Kernel) : Prop where
  termCur : k'.termCur = k.termCur
  flags : k'.processesFlags = k.processesFlags
  paging : k'.paging = k.paging
  esp0 : k'.esp0 = k.esp0
  termPid : ∀ t, (k'.terminal t).termPid = (k.terminal t).termPid
  numProcesses : ∀ t, (k'.terminal t).numProcesses = (k.terminal t).numProcesses
  init : ∀ t, (k'.terminal t).init = (k.terminal t).init
  pid : ∀ p, (k'.pcb p).pid = (k.pcb p).pid
  parentPid : ∀ p, (k'.pcb p).parentPid = (k.pcb p).parentPid
  parentEsp : ∀ p, (k'.pcb p).parentEsp = (k.pcb p).parentEsp

namespace SameProcesses

variable {k k' k'' : Kernel} {b : Build} {p : ℕ}

theorem io (console : Console) (keyboard : Keyboard) (devices : Devices) :
    SameProcesses k { k with console := console, keyboard := keyboard, devices := devices } :=
  ⟨rfl, rfl, rfl, rfl, fun _ ↦ rfl, fun _ ↦ rfl, fun _ ↦ rfl, fun _ ↦ rfl, fun _ ↦ rfl, fun _ ↦ rfl⟩

theorem refl (k : Kernel) : SameProcesses k k := io k.console k.keyboard k.devices

theorem trans (h : SameProcesses k k') (h' : SameProcesses k' k'') : SameProcesses k k'' where
  termCur := h'.termCur.trans h.termCur
  flags := h'.flags.trans h.flags
  paging := h'.paging.trans h.paging
  esp0 := h'.esp0.trans h.esp0
  termPid t := (h'.termPid t).trans (h.termPid t)
  numProcesses t := (h'.numProcesses t).trans (h.numProcesses t)
  init t := (h'.init t).trans (h.init t)
  pid p := (h'.pid p).trans (h.pid p)
  parentPid p := (h'.parentPid p).trans (h.parentPid p)
  parentEsp p := (h'.parentEsp p).trans (h.parentEsp p)

theorem live_iff (h : SameProcesses k k') : k'.live p ↔ k.live p := by
  rw [Kernel.live, Kernel.live, h.flags]

theorem runningPid_eq (h : SameProcesses k k') : k'.runningPid = k.runningPid := by
  rw [Kernel.runningPid, Kernel.runningPid, Kernel.current, Kernel.current, h.termCur, h.termPid]

theorem setTerminal {t : Fin maxTerminals} {f : Terminal → Terminal}
    (hp : ∀ s, (f s).termPid = s.termPid) (hn : ∀ s, (f s).numProcesses = s.numProcesses)
    (hi : ∀ s, (f s).init = s.init) : SameProcesses k (k.setTerminal t f) where
  __ := refl k
  termPid u := by by_cases h : u = t <;> simp [Kernel.setTerminal, h, hp]
  numProcesses u := by by_cases h : u = t <;> simp [Kernel.setTerminal, h, hn]
  init u := by by_cases h : u = t <;> simp [Kernel.setTerminal, h, hi]

theorem setFile {i : Fin maxFiles} {f : File} : SameProcesses k (k.setFile p i f) where
  __ := refl k
  pid q := by by_cases h : q = p <;> simp [Kernel.setFile, Kernel.setPcb, h]
  parentPid q := by by_cases h : q = p <;> simp [Kernel.setFile, Kernel.setPcb, h]
  parentEsp q := by by_cases h : q = p <;> simp [Kernel.setFile, Kernel.setPcb, h]

theorem terminalSave (t : Fin maxTerminals) : SameProcesses k (k.terminalSave t) :=
  (setTerminal (t := t) (f := fun s ↦
    { s with
      keyBufferPos := k.keyboard.keyBufferPos
      posX := k.console.screenX
      posY := k.console.screenY })
    (fun _ ↦ rfl) (fun _ ↦ rfl) (fun _ ↦ rfl)).trans (io _ _ _)

theorem showTerminal (t : Fin maxTerminals) : SameProcesses k (k.showTerminal t) :=
  ⟨rfl, rfl, rfl, rfl, fun _ ↦ rfl, fun _ ↦ rfl, fun _ ↦ rfl, fun _ ↦ rfl, fun _ ↦ rfl, fun _ ↦ rfl⟩

end SameProcesses

/-- A change that starts, ends and switches to nothing: of the terminals' records it
touches the key buffer in use, of the processes' the descriptors of those in `S`. -/
structure Local (S : Set ℕ) (k k' : Kernel) : Prop extends SameProcesses k k' where
  keyBuffer : k'.keyBuffer = k.keyBuffer
  terminal : ∀ t, ∃ buf, k'.terminal t = { k.terminal t with keyBuffer := buf } ∧
    (t ≠ k.keyBuffer → buf = (k.terminal t).keyBuffer)
  pcb : ∀ p ∉ S, k'.pcb p = k.pcb p

namespace Local

variable {S : Set ℕ} {k k' k'' : Kernel} {b : Build} {p : ℕ}

theorem io (console : Console) (keyboard : Keyboard) (devices : Devices) :
    Local S k { k with console := console, keyboard := keyboard, devices := devices } where
  __ := SameProcesses.io console keyboard devices
  keyBuffer := rfl
  terminal _ := ⟨_, rfl, fun _ ↦ rfl⟩
  pcb _ _ := rfl

theorem refl (k : Kernel) : Local S k k := io k.console k.keyboard k.devices

theorem trans (h : Local S k k') (h' : Local S k' k'') : Local S k k'' where
  __ := h.toSameProcesses.trans h'.toSameProcesses
  keyBuffer := h'.keyBuffer.trans h.keyBuffer
  terminal t := by
    obtain ⟨buf, hterm, hother⟩ := h.terminal t
    obtain ⟨buf', hterm', hother'⟩ := h'.terminal t
    refine ⟨buf', by rw [hterm', hterm], fun ht ↦ ?_⟩
    rw [hother' (by rwa [h.keyBuffer]), hterm, hother ht]
  pcb p hp := (h'.pcb p hp).trans (h.pcb p hp)

theorem terminal_of_ne {t : Fin maxTerminals} (h : Local S k k') (ht : t ≠ k.keyBuffer) :
    k'.terminal t = k.terminal t := by
  obtain ⟨buf, hterm, hother⟩ := h.terminal t
  rw [hterm, hother ht]

theorem setKeys {f : KeyBuffer → KeyBuffer} :
    Local S k (k.setTerminal k.keyBuffer fun t ↦ { t with keyBuffer := f t.keyBuffer }) where
  __ := SameProcesses.setTerminal (f := fun t ↦ { t with keyBuffer := f t.keyBuffer })
    (fun _ ↦ rfl) (fun _ ↦ rfl) (fun _ ↦ rfl)
  keyBuffer := rfl
  terminal t := by
    by_cases h : t = k.keyBuffer
    · subst h
      exact ⟨_, update_self _ _ _, fun hne ↦ absurd rfl hne⟩
    · exact ⟨_, update_of_ne h _ _, fun _ ↦ rfl⟩
  pcb _ _ := rfl

theorem setFile {i : Fin maxFiles} {f : File} (hp : p ∈ S) : Local S k (k.setFile p i f) where
  __ := SameProcesses.setFile
  keyBuffer := rfl
  terminal _ := ⟨_, rfl, fun _ ↦ rfl⟩
  pcb q hq := by
    have hne : q ≠ p := fun h ↦ hq (h ▸ hp)
    exact update_of_ne hne _ _

theorem storeKey (i : ℕ) (c : UInt8) : Local S k (k.storeKey i c) :=
  (setKeys (f := fun buf ↦ buf.put i c)).trans (io _ _ _)

theorem clearBuffer : Local S k k.clearBuffer :=
  (setKeys (f := fun _ ↦ KeyBuffer.empty)).trans (io _ _ _)

theorem pressKey (key : Key) : Local S k (k.pressKey key) := by
  cases key with
  | char c =>
    simp only [Kernel.pressKey, Kernel.enterChar]
    split_ifs
    · exact refl k
    · exact (storeKey _ _).trans (io _ _ _)
    · exact refl k
  | backspace =>
    simp only [Kernel.pressKey, Kernel.handleBackpace]
    split_ifs
    · exact (storeKey _ _).trans (io _ _ _)
    · exact refl k
  | enter => exact io _ _ _
  | ctrlL => exact io _ _ _
  | left =>
    simp only [Kernel.pressKey, Kernel.moveCursorLeft]
    split_ifs
    · exact io _ _ _
    · exact refl k
  | right =>
    simp only [Kernel.pressKey, Kernel.moveCursorRight]
    split_ifs
    · exact io _ _ _
    · exact refl k

theorem terminalRead {nbytes : ℤ} {bytes : List UInt8}
    (h : k.terminalRead nbytes = some (k', bytes)) : Local S k k' := by
  unfold Kernel.terminalRead at h
  split_ifs at h
  obtain ⟨rfl, -⟩ := Prod.mk.inj (Option.some.inj h)
  exact (io k.console { k.keyboard with enterPressed := false, touched := _ } k.devices).trans
    clearBuffer

end Local

/-- What a call of process `p` on descriptors does: it prints or sets a device, changes
one of the process's descriptors, of the first two never the inode, or takes a line from
the keyboard. -/
inductive FdEffect (p : ℕ) (k : Kernel) : Kernel → Prop
  | io (console : Console) (devices : Devices) :
    FdEffect p k { k with console := console, devices := devices }
  | file (devices : Devices) {i : Fin maxFiles} {f : File} :
    2 ≤ i.val ∨ f.inode = ((k.pcb p).files i).inode →
    FdEffect p k ({ k with devices := devices }.setFile p i f)
  | line {nbytes : ℤ} {bytes : List UInt8} {k' : Kernel} :
    k.terminalRead nbytes = some (k', bytes) → FdEffect p k k'

namespace FdEffect

variable {k k' : Kernel} {b : Build} {p : ℕ} {f : File}

theorem none (k : Kernel) : FdEffect p k k := .io k.console k.devices

theorem freeSlot_le {i : Fin maxFiles} (h : k.freeSlot p = some i) : 2 ≤ i.val := by
  have hfound := List.find?_some h
  simp only [Bool.and_eq_true, decide_eq_true_eq] at hfound
  exact hfound.1

theorem openFd (filename : Option (ℕ → UInt8)) : FdEffect p k (k.openFd b p filename).1 := by
  unfold Kernel.openFd
  split
  · exact none k
  · split
    · exact none k
    · split
      · exact none k
      · rename_i i hslot
        have hle := freeSlot_le hslot
        dsimp only
        split
        · exact .file k.devices (.inl hle)
        · split_ifs
          · exact .file _ (.inl hle)
          · exact .file _ (.inl hle)

theorem closeFd (fd : ℤ) : FdEffect p k (k.closeFd p fd).1 := by
  unfold Kernel.closeFd
  split
  · exact none k
  · dsimp only
    split_ifs
    · exact .file _ (.inr rfl)
    · exact .io k.console _

theorem fileRead_inode {img : Image} {nbytes : ℤ} : (fileRead img f nbytes).1.inode = f.inode := by
  unfold fileRead
  split
  · rfl
  · split_ifs <;> rfl

theorem dirRead_inode {img : Image} {nbytes : ℤ} : (dirRead img f nbytes).1.inode = f.inode := by
  unfold dirRead
  split <;> rfl

theorem readFd {fd : ℤ} {buf : Bool} {nbytes : ℤ} {r : ℤ × List UInt8}
    (h : k.readFd b p fd buf nbytes = some (k', r)) : FdEffect p k k' := by
  cases buf with
  | false =>
    obtain ⟨rfl, -⟩ := Prod.mk.inj (Option.some.inj h)
    exact none k
  | true =>
    simp only [Kernel.readFd, Bool.true_eq_false, if_false] at h
    split at h
    · obtain ⟨rfl, -⟩ := Prod.mk.inj (Option.some.inj h)
      exact none k
    · split at h
      · obtain ⟨⟨k₁, bytes⟩, hr, he⟩ := Option.map_eq_some_iff.mp h
        obtain ⟨rfl, -⟩ := Prod.mk.inj he
        exact .line hr
      · split_ifs at h
        obtain ⟨rfl, -⟩ := Prod.mk.inj (Option.some.inj h)
        exact .io k.console _
      · obtain ⟨rfl, -⟩ := Prod.mk.inj (Option.some.inj h)
        exact .file k.devices (.inr dirRead_inode)
      · obtain ⟨rfl, -⟩ := Prod.mk.inj (Option.some.inj h)
        exact .file k.devices (.inr fileRead_inode)
      · obtain ⟨rfl, -⟩ := Prod.mk.inj (Option.some.inj h)
        exact none k
      · obtain ⟨rfl, -⟩ := Prod.mk.inj (Option.some.inj h)
        exact none k

theorem writeFd (fd : ℤ) (buf : Option (ℕ → UInt8)) (nbytes : ℤ) :
    FdEffect p k (k.writeFd p fd buf nbytes).1 := by
  unfold Kernel.writeFd
  split
  · exact none k
  · split
    · exact none k
    · split
      · exact .io _ k.devices
      · exact .io k.console _
      all_goals exact none k

theorem fdCall {call : FdCall} {r : ℤ × List UInt8} (h : k.fdCall b p call = some (k', r)) :
    FdEffect p k k' := by
  cases call with
  | openFd filename =>
    obtain ⟨rfl, -⟩ := Prod.mk.inj (Option.some.inj h)
    exact openFd filename
  | closeFd fd =>
    obtain ⟨rfl, -⟩ := Prod.mk.inj (Option.some.inj h)
    exact closeFd fd
  | readFd fd buf nbytes => exact readFd h
  | writeFd fd buf nbytes =>
    obtain ⟨rfl, -⟩ := Prod.mk.inj (Option.some.inj h)
    exact writeFd fd buf nbytes

theorem toLocal {S : Set ℕ} (h : FdEffect p k k') (hp : p ∈ S) : Local S k k' := by
  cases h with
  | io console devices => exact .io console k.keyboard devices
  | file devices _ => exact (Local.io k.console k.keyboard devices).trans (.setFile hp)
  | line hread => exact .terminalRead hread

theorem pcb (h : FdEffect p k k') (q : ℕ) :
    ∃ files, k'.pcb q = { k.pcb q with files := files } := by
  cases h with
  | io => exact ⟨(k.pcb q).files, rfl⟩
  | @file devices i f _ =>
    by_cases hq : q = p
    · subst hq
      exact ⟨update (k.pcb q).files i f, update_self q _ _⟩
    · exact ⟨(k.pcb q).files, update_of_ne hq _ _⟩
  | line hread =>
    have hlocal : Local ∅ k k' := .terminalRead hread
    exact ⟨(k.pcb q).files, hlocal.pcb q (Set.notMem_empty q)⟩

end FdEffect

theorem Local.fdCall {S : Set ℕ} {k k' : Kernel} {b : Build} {p : ℕ} {call : FdCall}
    {r : ℤ × List UInt8} (hp : p ∈ S) (h : k.fdCall b p call = some (k', r)) : Local S k k' :=
  (FdEffect.fdCall h).toLocal hp

end ApollOS
