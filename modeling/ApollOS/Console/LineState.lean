import ApollOS.Console.SaveRestore

namespace ApollOS

open Function Console

variable {b : Build} {k k' s : Kernel} {t term : Fin maxTerminals} {e : Event}

namespace Kernel

/-- One test of the loop of `terminal_read`: it comes back with a line or spins on. -/
def tryRead (k : Kernel) (nbytes : ℤ) : Kernel × Option (List UInt8) :=
  match k.terminalRead nbytes with
  | some (k', bytes) => (k', some bytes)
  | none => (k, none)

def here (k : Kernel) : Event → Kernel
  | .key key => k.pressKey key
  | .output c => { k with console := k.console.putc c }
  | .read nbytes => (k.tryRead nbytes).1
  | .switch _ => k

def answer (k : Kernel) : Event → List (Option (List UInt8))
  | .read nbytes => [(k.tryRead nbytes).2]
  | _ => []

def attempt (b : Build) (k : Kernel) (e : Event) : Option Kernel :=
  match e with
  | .switch term => k.event b (.switch term)
  | e => some (k.here e)

end Kernel

structure Own where
  entered : Bool
  bound : ℤ

/-- The bound moves with the characters that are stored and erased. -/
def Own.press (o : Own) (k : Kernel) : Key → Own
  | .char c =>
    if k.keyboard.keyBufferPos < keyBufferSize.toUInt32 ∧ c ≠ 0 then { o with bound := o.bound + 1 }
    else o
  | .backspace => if k.keyboard.keyBufferPos > 0 then { o with bound := o.bound - 1 } else o
  | .enter => ⟨true, 7⟩
  | .ctrlL => o
  | .left => o
  | .right => o

def Own.step (o : Own) (k : Kernel) : Event → Own
  | .key key => o.press k key
  | .output _ => o
  | .read _ => if o.entered then ⟨false, 7⟩ else o
  | .switch _ => o

section Here

theorem unsaved_inj (h : k.unsaved = s.unsaved) : k.current.keyBuffer = s.current.keyBuffer ∧
    k.keyboard.keyBufferPos = s.keyboard.keyBufferPos ∧ k.console.screenX = s.console.screenX ∧
    k.console.screenY = s.console.screenY ∧ k.current.vidMem = s.current.vidMem :=
  Saved.mk.inj h

theorem current_storeKey (hk : k.keyBuffer = k.termCur) (j : ℕ) (c : UInt8) :
    (k.storeKey j c).current = { k.current with keyBuffer := k.current.keyBuffer.put j c } := by
  simp [Kernel.current, Kernel.storeKey, Kernel.setTerminal, hk]

theorem unsaved_clearBuffer (hk : k.keyBuffer = k.termCur) : k.clearBuffer.unsaved =
    ⟨KeyBuffer.empty, 0, k.console.screenX, k.console.screenY, k.current.vidMem⟩ := by
  have hcur : k.clearBuffer.current = { k.current with keyBuffer := KeyBuffer.empty } := by
    simp [Kernel.current, Kernel.clearBuffer, Kernel.setTerminal, hk]
  rw [Kernel.unsaved, hcur]
  rfl

/-- The line and the cursor of two kernels, if another line, keyboard and console are
put in. -/
theorem unsaved_congr {kb kb' : Keyboard} {con con' : Console}
    (hbuf : k.current.keyBuffer = s.current.keyBuffer) (hvid : k.current.vidMem = s.current.vidMem)
    (hpos : kb.keyBufferPos = kb'.keyBufferPos) (hx : con.screenX = con'.screenX)
    (hy : con.screenY = con'.screenY) :
    { k with keyboard := kb, console := con }.unsaved =
      { s with keyboard := kb', console := con' }.unsaved := by
  change Saved.mk k.current.keyBuffer _ _ _ k.current.vidMem = ⟨s.current.keyBuffer, _, _, _, _⟩
  rw [hbuf, hvid, hpos, hx, hy]
  rfl

theorem putc_cursor {c d : Console} (hx : c.screenX = d.screenX) (hy : c.screenY = d.screenY)
    (x : UInt8) : (c.putc x).screenX = (d.putc x).screenX ∧
      (c.putc x).screenY = (d.putc x).screenY := by
  simp only [putc_screenX, putc_screenY, hx, hy, and_self]

theorem puts_cursor {c d : Console} (hx : c.screenX = d.screenX) (hy : c.screenY = d.screenY)
    (l : List UInt8) : (c.puts l).screenX = (d.puts l).screenX ∧
      (c.puts l).screenY = (d.puts l).screenY := by
  induction l generalizing c d with
  | nil => exact ⟨hx, hy⟩
  | cons x l ih =>
    obtain ⟨hx', hy'⟩ := putc_cursor hx hy x
    exact ih hx' hy'

theorem clear_cursor (c d : Console) :
    c.clear.screenX = d.clear.screenX ∧ c.clear.screenY = d.clear.screenY := by
  rw [clear, clear]
  apply puts_cursor
  · simp only [updateCursorLoc, setScreenPos]
  · simp only [updateCursorLoc, setScreenPos]

theorem pressKey_unsaved {key : Key} (hk : k.keyBuffer = k.termCur) (hs : s.keyBuffer = s.termCur)
    (h : k.unsaved = s.unsaved)
    (hright : key = .right → (k.console.screenX < k.keyboard.rightBound ↔
      s.console.screenX < s.keyboard.rightBound)) :
    (k.pressKey key).unsaved = (s.pressKey key).unsaved := by
  obtain ⟨hbuf, hpos, hx, hy, hvid⟩ := unsaved_inj h
  cases key with
  | char c =>
    simp only [Kernel.pressKey, Kernel.enterChar, hpos]
    split_ifs
    · exact h
    · obtain ⟨hx', hy'⟩ := putc_cursor hx hy c
      refine unsaved_congr ?_ ?_ (congrArg (· + 1) hpos) hx' hy'
      · rw [current_storeKey hk, current_storeKey hs, hbuf]
      · rw [current_storeKey hk, current_storeKey hs]
        exact hvid
    · exact h
  | backspace =>
    simp only [Kernel.pressKey, Kernel.handleBackpace, hpos]
    split_ifs
    · refine unsaved_congr ?_ ?_ rfl ?_ ?_
      · rw [current_storeKey hk, current_storeKey hs, hbuf]
      · rw [current_storeKey hk, current_storeKey hs]
        exact hvid
      · simp only [doBackspace_screenX, Kernel.storeKey, Kernel.setTerminal, hx, hy]
      · simp only [doBackspace_screenY, Kernel.storeKey, Kernel.setTerminal, hx, hy]
    · exact h
  | enter =>
    refine unsaved_congr hbuf hvid hpos ?_ ?_
    · simp only [doEnter_screenX]
    · simp only [doEnter_screenY, hy]
  | ctrlL =>
    obtain ⟨hx', hy'⟩ := clear_cursor k.console s.console
    exact unsaved_congr hbuf hvid rfl hx' hy'
  | left =>
    simp only [Kernel.pressKey, Kernel.moveCursorLeft, hx, hy, hpos]
    split_ifs
    · exact unsaved_congr hbuf hvid rfl rfl rfl
    · exact h
  | right =>
    have htest := hright rfl
    rw [Kernel.pressKey, Kernel.pressKey, Kernel.moveCursorRight, Kernel.moveCursorRight]
    by_cases hbound : s.console.screenX < s.keyboard.rightBound
    · rw [if_pos (htest.mpr hbound), if_pos hbound]
      simp only [hx, hy, hpos]
      exact unsaved_congr hbuf hvid rfl rfl rfl
    · rw [if_neg (mt htest.mp hbound), if_neg hbound]
      exact h

/-- The flag and the bound are those that the terminal's own events make. -/
structure OwnFlags (k : Kernel) (o : Own) : Prop where
  entered : k.keyboard.enterPressed = o.entered
  bound : k.keyboard.rightBound = o.bound

namespace OwnFlags

variable {o : Own}

theorem pressKey (h : OwnFlags k o) (key : Key) :
    OwnFlags (k.pressKey key) (o.press k key) := by
  obtain ⟨hentered, hbound⟩ := h
  cases key with
  | char c =>
    simp only [Kernel.pressKey, Kernel.enterChar, Own.press]
    by_cases hpos : k.keyboard.keyBufferPos < keyBufferSize.toUInt32
    · by_cases hc : c = 0
      · simp only [hpos, hc, ne_eq, not_true_eq_false, and_false, if_true, if_false]
        exact ⟨hentered, hbound⟩
      · simp only [hpos, hc, ne_eq, not_false_eq_true, and_self, if_true, if_false]
        exact ⟨hentered, congrArg (· + 1) hbound⟩
    · simp only [hpos, false_and, if_false]
      exact ⟨hentered, hbound⟩
  | backspace =>
    simp only [Kernel.pressKey, Kernel.handleBackpace, Own.press]
    split_ifs
    · exact ⟨hentered, congrArg (· - 1) hbound⟩
    · exact ⟨hentered, hbound⟩
  | enter => exact ⟨rfl, rfl⟩
  | ctrlL => exact ⟨hentered, hbound⟩
  | left =>
    simp only [Kernel.pressKey, Kernel.moveCursorLeft, Own.press]
    split_ifs <;> exact ⟨hentered, hbound⟩
  | right =>
    simp only [Kernel.pressKey, Kernel.moveCursorRight, Own.press]
    split_ifs <;> exact ⟨hentered, hbound⟩

theorem tryRead (h : OwnFlags k o) (nbytes : ℤ) :
    OwnFlags (k.tryRead nbytes).1 (o.step k (.read nbytes)) := by
  have hentered := h.entered
  rw [Own.step, ← hentered]
  cases hflag : k.keyboard.enterPressed with
  | false =>
    rw [Kernel.tryRead, Kernel.terminalRead_waits hflag]
    exact h
  | true =>
    rw [Kernel.tryRead, Kernel.terminalRead, if_pos hflag]
    exact ⟨rfl, rfl⟩

theorem here (h : OwnFlags k o) (e : Event) : OwnFlags (k.here e) (o.step k e) := by
  cases e with
  | key key => exact h.pressKey key
  | output c => exact ⟨h.entered, h.bound⟩
  | read nbytes => exact h.tryRead nbytes
  | switch term => exact h

end OwnFlags

theorem own_congr {o : Own} (h : k.keyboard.keyBufferPos = s.keyboard.keyBufferPos) (e : Event) :
    o.step k e = o.step s e := by
  cases e with
  | key key => cases key <;> simp only [Own.step, Own.press, h]
  | output c => rfl
  | read nbytes => rfl
  | switch term => rfl

theorem keys_current (hk : k.keyBuffer = k.termCur) : k.keys = k.current.keyBuffer := by
  rw [Kernel.keys, hk, Kernel.current]

theorem tryRead_congr {nbytes : ℤ} (hk : k.keyBuffer = k.termCur) (hs : s.keyBuffer = s.termCur)
    (h : k.unsaved = s.unsaved) (hflag : k.keyboard.enterPressed = s.keyboard.enterPressed) :
    (k.tryRead nbytes).1.unsaved = (s.tryRead nbytes).1.unsaved ∧
      (k.tryRead nbytes).2 = (s.tryRead nbytes).2 := by
  cases hentered : s.keyboard.enterPressed with
  | false =>
    rw [Kernel.tryRead, Kernel.tryRead, Kernel.terminalRead_waits hentered,
      Kernel.terminalRead_waits (hflag.trans hentered)]
    exact ⟨h, rfl⟩
  | true =>
    obtain ⟨hbuf, -, hx, hy, hvid⟩ := unsaved_inj h
    rw [Kernel.tryRead, Kernel.tryRead, Kernel.terminalRead, Kernel.terminalRead, if_pos hentered,
      if_pos (hflag.trans hentered)]
    refine ⟨(unsaved_clearBuffer hk).trans (.trans ?_ (unsaved_clearBuffer hs).symm), ?_⟩
    · simp only [hx, hy]
      exact congrArg _ hvid
    · rw [keys_current hk, keys_current hs, hbuf]

theorem here_local {S : Set ℕ} (e : Event) : Local S k (k.here e) := by
  cases e with
  | key key => exact .pressKey key
  | output c => exact .io _ _ _
  | read nbytes =>
    rw [Kernel.here, Kernel.tryRead]
    cases hread : k.terminalRead nbytes with
    | none => exact .refl k
    | some r => exact .terminalRead hread
  | switch term => exact .refl k

/-- An event at the current terminal is the same for two kernels with the same line,
if they agree on the flag at a read and on the test of the bound at a right arrow. -/
theorem here_congr (hk : k.keyBuffer = k.termCur) (hs : s.keyBuffer = s.termCur)
    (h : k.unsaved = s.unsaved)
    (hflag : ∀ nbytes, e = .read nbytes → k.keyboard.enterPressed = s.keyboard.enterPressed)
    (hright : e = .key .right → (k.console.screenX < k.keyboard.rightBound ↔
      s.console.screenX < s.keyboard.rightBound)) :
    (k.here e).unsaved = (s.here e).unsaved ∧ k.answer e = s.answer e := by
  cases e with
  | key key => exact ⟨pressKey_unsaved hk hs h fun hkey ↦ hright (congrArg Event.key hkey), rfl⟩
  | output c =>
    obtain ⟨hbuf, hpos, hx, hy, hvid⟩ := unsaved_inj h
    obtain ⟨hx', hy'⟩ := putc_cursor hx hy c
    exact ⟨unsaved_congr hbuf hvid hpos hx' hy', rfl⟩
  | read nbytes =>
    obtain ⟨hline, hanswer⟩ := tryRead_congr hk hs h (hflag nbytes rfl)
    exact ⟨hline, congrArg (fun a ↦ [a]) hanswer⟩
  | switch term => exact ⟨h, rfl⟩

end Here

def Saved.begun (s : Saved) : Saved :=
  let c := banner.foldl Console.puts ⟨fun _ ↦ 0, s.posX, s.posY, 0, []⟩
  ⟨s.keyBuffer, s.pos, c.screenX, c.screenY, s.vidMem⟩

/-- What a change to the terminal brings to the screen. -/
def Terminal.line (t : Terminal) : Saved := if t.init then t.saved else t.saved.begun

def Kernel.lineOf (k : Kernel) (t : Fin maxTerminals) : Saved :=
  if t = k.termCur then k.unsaved else (k.terminal t).line

section Lines

theorem lineOf_current (h : t = k.termCur) : k.lineOf t = k.unsaved := if_pos h

theorem lines_cursor {c d : Console} (hx : c.screenX = d.screenX) (hy : c.screenY = d.screenY)
    (ls : List (List UInt8)) :
    (ls.foldl Console.puts c).screenX = (ls.foldl Console.puts d).screenX ∧
      (ls.foldl Console.puts c).screenY = (ls.foldl Console.puts d).screenY := by
  induction ls generalizing c d with
  | nil => exact ⟨hx, hy⟩
  | cons l ls ih =>
    obtain ⟨hx', hy'⟩ := puts_cursor hx hy l
    exact ih hx' hy'

theorem begun_unsaved (h : k.termCur = term) :
    (k.begun term).unsaved = (k.terminal term).saved.begun := by
  generalize hshown : (k.setTerminal term fun t ↦ { t with init := true }).showTerminal term = shown
  have hconsole : (k.begun term).console = banner.foldl Console.puts shown.console := by
    rw [← hshown]
    rfl
  have hplace : shown.console.screenX = (k.terminal term).posX ∧
      shown.console.screenY = (k.terminal term).posY := by
    rw [← hshown]
    simp [Kernel.showTerminal, Kernel.setTerminal, setScreenPos, updateCursorLoc]
  obtain ⟨hx, hy⟩ := lines_cursor (d := ⟨fun _ ↦ 0, (k.terminal term).posX, (k.terminal term).posY,
    0, []⟩) hplace.1 hplace.2 banner
  obtain ⟨console, hbegun⟩ := k.begun_eq term
  have hline : (k.terminal term).saved.begun = ⟨(k.terminal term).keyBuffer,
      (k.terminal term).keyBufferPos, (k.begun term).console.screenX,
      (k.begun term).console.screenY, (k.terminal term).vidMem⟩ := by
    rw [hconsole, hx, hy]
    rfl
  rw [hline, Kernel.unsaved, Kernel.current, Kernel.begun_termCur, h]
  simp only [hbegun, update_self]

theorem installed_unsaved {site : CallSite} {p : ℕ} {args : List UInt8} {mem : Memory} :
    (k.installed b site p args mem).unsaved = k.unsaved := by
  simp [Kernel.unsaved, Kernel.installed, Kernel.current]

theorem Exchanged.lineOf (h : Exchanged k term k') (hcur : k.current.init = true)
    (hinit : ∀ t ≠ term, (k'.terminal t).init = (k.terminal t).init)
    (hlive : k'.unsaved = (k.terminal term).line) : k'.lineOf t = k.lineOf t := by
  by_cases hterm : t = term
  · subst hterm
    rw [lineOf_current h.termCur.symm, hlive, Kernel.lineOf, if_neg h.ne]
  · rw [Kernel.lineOf, h.termCur, if_neg hterm, Terminal.line, hinit t hterm]
    by_cases hleft : t = k.termCur
    · subst hleft
      rw [lineOf_current rfl, h.saved_left]
      exact if_pos hcur
    · rw [h.saved t hleft, Kernel.lineOf, if_neg hleft, Terminal.line]

/-- The other terminals' lines are not touched by what happens at the current one. -/
theorem lineOf_quiet {S : Set ℕ} (hs : Local S k k') (hk : k.keyBuffer = k.termCur)
    (ht : t ≠ k.termCur) : k'.lineOf t = k.lineOf t := by
  rw [Kernel.lineOf, Kernel.lineOf, hs.termCur, if_neg ht, if_neg ht, hs.terminal_of_ne (hk ▸ ht)]

end Lines

end ApollOS
