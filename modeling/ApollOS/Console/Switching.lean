import ApollOS.Console.KeyBuffer
import ApollOS.Process.Boot

namespace ApollOS

open Function

variable {b : Build} {k k' : Kernel} {term t : Fin maxTerminals}

/-- What changing to a terminal leads to, whatever state the processes are in. -/
inductive Switched (b : Build) (k : Kernel) (term : Fin maxTerminals) : Kernel → Prop
  | same : term = k.termCur → Switched b k term k
  | refused (s : List UInt8) : term ≠ k.termCur → (k.terminal term).init = false →
    Switched b k term { k with console := k.console.puts s }
  | loaded : term ≠ k.termCur → (k.terminal term).init = true →
    Switched b k term ((k.leftFor term).terminalLoad term)
  | failed (s : List UInt8) : term ≠ k.termCur → (k.terminal term).init = false →
    Switched b k term { (k.leftFor term).begun term with
      console := ((k.leftFor term).begun term).console.puts s }
  | started (p : ℕ) (mem : Memory) : term ≠ k.termCur → (k.terminal term).init = false →
    p < maxProcesses → ((k.leftFor term).begun term).Loads b shellCommand p mem →
    Switched b k term (((k.leftFor term).begun term).installed b .terminalStart p
      (commandArgs shellCommand.text) mem)

theorem switched_of_event (h : k.event b (.switch term) = some k') : Switched b k term k' := by
  obtain ⟨⟨k₁, o⟩, hk, rfl⟩ := Option.map_eq_some_iff.mp h
  by_cases hne : term = k.termCur
  · rw [Kernel.switchTerminal, if_pos hne] at hk
    obtain ⟨rfl, -⟩ := Prod.mk.inj (Option.some.inj hk)
    exact .same hne
  · by_cases hfull : (k.terminal term).init = false ∧ k.canExecute = false
    · rw [Kernel.switchTerminal, if_neg hne, if_pos hfull] at hk
      obtain ⟨rfl, -⟩ := Prod.mk.inj (Option.some.inj hk)
      exact .refused _ hne hfull.1
    · cases hinit : (k.terminal term).init with
      | false =>
        rw [Kernel.switchTerminal_eq hne hfull, if_pos hinit, Kernel.terminalStart_eq] at hk
        cases hlaunch : ((k.leftFor term).begun term).launch b .terminalStart shellCommand with
        | none => simp [hlaunch, afterCall] at hk
        | some r =>
          obtain ⟨k₂, o₂⟩ := r
          rw [hlaunch] at hk
          rcases Kernel.launch_cases hlaunch with
            ⟨v, s, rfl, rfl⟩ | ⟨p, mem, e, -, hnew, rfl, rfl, hmem⟩
          · obtain ⟨rfl, -⟩ := Prod.mk.inj (Option.some.inj hk)
            exact .failed s hne hinit
          · obtain ⟨rfl, -⟩ := Prod.mk.inj (Option.some.inj hk)
            exact .started p mem hne hinit (Kernel.getNewPid_eq_some hnew).1 hmem
      | true =>
        rw [Kernel.switchTerminal_load hne hinit] at hk
        obtain ⟨rfl, -⟩ := Prod.mk.inj (Option.some.inj hk)
        exact .loaded hne hinit

/-- What `terminal_t` holds of a terminal's line and screen. -/
structure Saved where
  keyBuffer : KeyBuffer
  pos : UInt32
  posX : ℤ
  posY : ℤ
  vidMem : ℤ

def Terminal.saved (t : Terminal) : Saved := ⟨t.keyBuffer, t.keyBufferPos, t.posX, t.posY, t.vidMem⟩

def Kernel.unsaved (k : Kernel) : Saved :=
  ⟨k.current.keyBuffer, k.keyboard.keyBufferPos, k.console.screenX, k.console.screenY,
    k.current.vidMem⟩

/-- Two states that agree on the input lines and the saved screens. -/
structure SameLines (k k' : Kernel) : Prop where
  termCur : k'.termCur = k.termCur
  keyBuffer : k'.keyBuffer = k.keyBuffer
  keyboard : k'.keyboard = k.keyboard
  saved : ∀ t, (k'.terminal t).saved = (k.terminal t).saved

theorem SameLines.console (c : Console) : SameLines k { k with console := c } :=
  ⟨rfl, rfl, rfl, fun _ ↦ rfl⟩

theorem SameLines.installed {site : CallSite} {p : ℕ} {args : List UInt8} {mem : Memory} :
    SameLines k (k.installed b site p args mem) where
  termCur := rfl
  keyBuffer := rfl
  keyboard := rfl
  saved t := by
    by_cases h : t = k.termCur <;> simp [Kernel.installed, Kernel.current, Terminal.saved, h]

/-- The line and the cursor of the current terminal are put away, and those of
another are taken out. -/
structure Exchanged (k : Kernel) (term : Fin maxTerminals) (k' : Kernel) : Prop where
  ne : term ≠ k.termCur
  termCur : k'.termCur = term
  keyBuffer : k'.keyBuffer = term
  keyboard : k'.keyboard = { k.keyboard with keyBufferPos := (k.terminal term).keyBufferPos }
  saved_left : (k'.terminal k.termCur).saved = k.unsaved
  saved : ∀ t ≠ k.termCur, (k'.terminal t).saved = (k.terminal t).saved

namespace Exchanged

theorem congr {k'' : Kernel} (h : Exchanged k term k') (hs : SameLines k' k'') :
    Exchanged k term k'' where
  ne := h.ne
  termCur := hs.termCur.trans h.termCur
  keyBuffer := hs.keyBuffer.trans h.keyBuffer
  keyboard := hs.keyboard.trans h.keyboard
  saved_left := (hs.saved _).trans h.saved_left
  saved t ht := (hs.saved t).trans (h.saved t ht)

theorem leftFor_terminal (term : Fin maxTerminals) (h : t ≠ k.termCur) :
    (k.leftFor term).terminal t = k.terminal t :=
  update_of_ne h _ _

theorem leftFor_saved (k : Kernel) (term : Fin maxTerminals) :
    ((k.leftFor term).terminal k.termCur).saved = k.unsaved := by
  simp [Kernel.leftFor, Kernel.terminalSave, Kernel.setTerminal, Terminal.saved, Kernel.unsaved,
    Kernel.current]

theorem terminalLoad (h : term ≠ k.termCur) :
    Exchanged k term ((k.leftFor term).terminalLoad term) where
  ne := h
  termCur := rfl
  keyBuffer := rfl
  keyboard := by
    have hterm : (k.leftFor term).terminal term = k.terminal term := leftFor_terminal term h
    rw [← hterm]
    rfl
  saved_left := leftFor_saved k term
  saved t ht := congrArg Terminal.saved (leftFor_terminal term ht)

theorem begun (h : term ≠ k.termCur) : Exchanged k term ((k.leftFor term).begun term) := by
  obtain ⟨console, hbegun⟩ := (k.leftFor term).begun_eq term
  have hsame (t : Fin maxTerminals) : (((k.leftFor term).begun term).terminal t).saved =
      ((k.leftFor term).terminal t).saved := by
    rw [hbegun]
    by_cases ht : t = term
    · subst ht
      simp [Terminal.saved]
    · simp [ht]
  refine ⟨h, ?_, ?_, ?_, (hsame _).trans (leftFor_saved k term), fun t ht ↦ ?_⟩
  · rw [hbegun]
    rfl
  · rw [hbegun]
  · rw [hbegun, leftFor_terminal term h]
    rfl
  · rw [hsame, leftFor_terminal term ht]

end Exchanged

theorem Switched.lines (h : Switched b k term k') : SameLines k k' ∨ Exchanged k term k' := by
  cases h with
  | same => exact .inl (.console k.console)
  | refused s => exact .inl (.console _)
  | loaded hne => exact .inr (.terminalLoad hne)
  | failed s hne => exact .inr ((Exchanged.begun hne).congr (.console _))
  | started p mem hne => exact .inr ((Exchanged.begun hne).congr .installed)

def Saved.place (s : Saved) : UInt32 × ℤ × ℤ := (s.pos, s.posX, s.posY)

/-- An event leaves the place of a terminal as it was, or puts away the one in use. -/
theorem place_of_event {e : Event} (hk : k.event b e = some k') (t : Fin maxTerminals) :
    (k'.terminal t).saved.place = (k.terminal t).saved.place ∨
      (k'.terminal t).saved.place = k.unsaved.place := by
  have hlocal (h : Local ∅ k k') :
      (k'.terminal t).saved.place = (k.terminal t).saved.place := by
    obtain ⟨buf, hterm, -⟩ := h.terminal t
    rw [hterm]
    rfl
  cases e with
  | key key =>
    obtain rfl := Option.some.inj hk
    exact .inl (hlocal (.pressKey key))
  | output c =>
    obtain rfl := Option.some.inj hk
    exact .inl rfl
  | read nbytes =>
    obtain ⟨⟨k₁, bytes⟩, hread, rfl⟩ := Option.map_eq_some_iff.mp hk
    exact .inl (hlocal (.terminalRead hread))
  | switch term =>
    rcases (switched_of_event hk).lines with hsame | hex
    · exact .inl (congrArg Saved.place (hsame.saved t))
    · by_cases ht : t = k.termCur
      · subst ht
        exact .inr (congrArg Saved.place hex.saved_left)
      · exact .inl (congrArg Saved.place (hex.saved t ht))

theorem boots_lines {m : Machine} (h : Boots b m k) :
    k.keyboard = (m.initial b).keyboard ∧ k.keyBuffer = 0 ∧
      ∀ t, (k.terminal t).saved = ⟨KeyBuffer.empty, 0, 0, 0, termPage t⟩ := by
  obtain ⟨-, mem, rfl⟩ := boots_cases h
  obtain ⟨console, hready⟩ := Kernel.begun_eq ((m.initial b).resetTerminals b) 0
  have hsame : SameLines (m.ready b)
      ((m.ready b).installed b .terminalStart 0 (commandArgs shellCommand.text) mem) := .installed
  rw [hsame.keyboard, hsame.keyBuffer]
  simp only [hsame.saved]
  rw [Machine.ready_eq, hready]
  refine ⟨rfl, rfl, fun t ↦ ?_⟩
  by_cases ht : t = 0
  · subst ht
    simp only [update_self]
    rfl
  · simp only [update_of_ne ht]
    rfl

end ApollOS
