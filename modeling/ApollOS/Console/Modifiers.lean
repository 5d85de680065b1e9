import ApollOS.Console.Switching
import ApollOS.Kernel.KeyboardHandler

namespace ApollOS

open Function Runs

variable {b : Build} {m : Machine} {k k' k'' k₀ : Kernel} {a : Action} {p : ℕ} {code : UInt8}

/-- What keyboard.c knows of Shift and CapsLock, and the row of its table it takes
characters from. -/
structure Modifiers where
  shift : Bool
  caps : Bool
  row : ℕ

def Keyboard.modifiers (kb : Keyboard) : Modifiers :=
  ⟨kb.shiftPressed, kb.capslockState, kb.keysState⟩

def SameModifiers (k k' : Kernel) : Prop := k'.keyboard.modifiers = k.keyboard.modifiers

namespace SameModifiers

theorem trans (h : SameModifiers k k') (h' : SameModifiers k' k'') : SameModifiers k k'' :=
  Eq.trans h' h

theorem pressKey (key : Key) : SameModifiers k (k.pressKey key) := by
  cases key with
  | char c =>
    rw [Kernel.pressKey, Kernel.enterChar]
    split_ifs <;> rfl
  | backspace =>
    rw [Kernel.pressKey, Kernel.handleBackpace]
    split_ifs <;> rfl
  | enter => rfl
  | ctrlL => rfl
  | left =>
    rw [Kernel.pressKey, Kernel.moveCursorLeft]
    split_ifs <;> rfl
  | right =>
    rw [Kernel.pressKey, Kernel.moveCursorRight]
    split_ifs <;> rfl

theorem begun (term : Fin maxTerminals) : SameModifiers k (k.begun term) := by
  obtain ⟨console, h⟩ := k.begun_eq term
  rw [SameModifiers, h]
  rfl

theorem switch {term : Fin maxTerminals} (h : k.event b (.switch term) = some k') :
    SameModifiers k k' := by
  have hleft : SameModifiers k (k.leftFor term) := rfl
  have hbegun : SameModifiers k ((k.leftFor term).begun term) := hleft.trans (begun term)
  cases switched_of_event h with
  | same => rfl
  | refused => rfl
  | loaded => exact hleft
  | failed => exact hbegun.trans rfl
  | started => exact hbegun.trans rfl

theorem terminalRead {nbytes : ℤ} {bytes : List UInt8}
    (h : k.terminalRead nbytes = some (k', bytes)) : SameModifiers k k' := by
  rw [Kernel.terminalRead] at h
  split_ifs at h
  obtain ⟨rfl, -⟩ := Prod.mk.inj (Option.some.inj h)
  rfl

theorem event {e : Event} (h : k.event b e = some k') : SameModifiers k k' := by
  cases e with
  | key key =>
    obtain rfl := Option.some.inj h
    exact pressKey key
  | output c =>
    obtain rfl := Option.some.inj h
    rfl
  | read nbytes =>
    obtain ⟨⟨k₁, bytes⟩, hread, rfl⟩ := Option.map_eq_some_iff.mp h
    exact terminalRead hread
  | switch term => exact switch h

theorem launch {site : CallSite} {command : Command} {o : Outcome}
    (h : k.launch b site command = some (k', o)) : SameModifiers k k' := by
  rcases Kernel.launch_cases h with ⟨v, s, -, rfl⟩ | ⟨p, mem, entry, -, -, -, rfl, -⟩
  · rfl
  · rfl

theorem afterCall {r : Option (Kernel × Outcome)} {cont : Kernel → Option (Kernel × Outcome)}
    {o : Outcome} (hr : ∀ k₁ o, r = some (k₁, o) → SameModifiers k k₁)
    (hcont : ∀ k₁ k₂ o, cont k₁ = some (k₂, o) → SameModifiers k₁ k₂)
    (h : afterCall r cont = some (k', o)) : SameModifiers k k' := by
  cases r with
  | none => cases h
  | some r =>
    obtain ⟨k₁, o₁⟩ := r
    cases o₁ with
    | returned v => exact (hr k₁ _ rfl).trans (hcont k₁ k' o h)
    | started entry =>
      obtain ⟨rfl, -⟩ := Prod.mk.inj (Option.some.inj h)
      exact hr _ _ rfl
    | resumed status =>
      obtain ⟨rfl, -⟩ := Prod.mk.inj (Option.some.inj h)
      exact hr _ _ rfl

theorem halt {status : UInt8} {o : Outcome} (h : k.halt b status = some (k', o)) :
    SameModifiers k k' := by
  rw [Kernel.halt_eq] at h
  have hlaunch {c : Prop} [Decidable c] {k₁ k₂ : Kernel} {o : Outcome}
      (h : (if c then k₁.launch b .halt shellCommand else some (k₁, .returned 0)) = some (k₂, o)) :
      SameModifiers k₁ k₂ := by
    split_ifs at h
    · exact launch h
    · obtain ⟨rfl, -⟩ := Prod.mk.inj (Option.some.inj h)
      rfl
  have hretired : SameModifiers k k.retired := rfl
  refine afterCall (k := k) (fun k₁ o h₁ ↦ hretired.trans (hlaunch h₁)) ?_ h
  refine fun k₁ k₂ o h₂ ↦ afterCall (fun k₃ o h₃ ↦ hlaunch h₃) (fun k₃ k₄ o h₄ ↦ ?_) h₂
  obtain ⟨rfl, -⟩ := Prod.mk.inj (Option.some.inj h₄)
  rfl

theorem execute {command : Option Command} {o : Outcome}
    (h : k.execute b command = some (k', o)) : SameModifiers k k' := by
  cases command with
  | none =>
    obtain ⟨rfl, -⟩ := Prod.mk.inj (Option.some.inj h)
    rfl
  | some command =>
    rw [Kernel.execute_some] at h
    split_ifs at h
    · refine afterCall (fun k₁ o h₁ ↦ halt h₁) (fun k₁ k₂ o h₂ ↦ ?_) h
      obtain ⟨rfl, -⟩ := Prod.mk.inj (Option.some.inj h₂)
      rfl
    · exact launch h

theorem fdCall {call : FdCall} {r : ℤ × List UInt8} (h : k.fdCall b p call = some (k', r)) :
    SameModifiers k k' := by
  cases FdEffect.fdCall h with
  | io => rfl
  | file => rfl
  | line hread => exact terminalRead hread

theorem step (h : k.step b a = some k') : SameModifiers k k' := by
  cases a with
  | console e => exact event h
  | execute command =>
    obtain ⟨⟨k₁, o⟩, hexec, rfl⟩ := Option.map_eq_some_iff.mp h
    exact execute hexec
  | halt status =>
    obtain ⟨⟨k₁, o⟩, hhalt, rfl⟩ := Option.map_eq_some_iff.mp h
    exact halt hhalt
  | vidmap screenStart =>
    obtain ⟨⟨k₁, r⟩, hvid, rfl⟩ := Option.map_eq_some_iff.mp h
    rcases Kernel.vidmap_cases hvid with ⟨rfl, -⟩ | ⟨mem, -, -, rfl⟩
    · rfl
    · rfl
  | fdCall call =>
    obtain ⟨⟨k₁, r⟩, hcall, rfl⟩ := Option.map_eq_some_iff.mp h
    exact fdCall hcall

end SameModifiers

/-- What comes to the kernel: a scan code, or anything else there is to do. -/
inductive Input
  | scancode (code : UInt8)
  | other (a : Action)

structure Typist where
  kernel : Kernel
  codes : List UInt8

def shiftOn : List UInt8 → Bool
  | [] => false
  | code :: codes =>
    match scan code with
    | .shift pressed => pressed
    | _ => shiftOn codes

def capsOn (codes : List UInt8) : Bool := codes.countP (scan · = .capslock) % 2 = 1

def isLetter (c : UInt8) : Bool := 97 ≤ c ∧ c ≤ 122

def toUpper (c : UInt8) : UInt8 := c - 32

/-- The character of a key: Shift and CapsLock change the case of a letter, and Shift
alone takes the upper character of any other key. -/
def charOf (code : UInt8) (shift caps : Bool) : UInt8 :=
  let base := keyScancodes 0 code
  if isLetter base then if shift ≠ caps then toUpper base else base
  else if shift then keyScancodes 1 code else base

namespace Typist

def step (b : Build) (s : Typist) (input : Input) : Option Typist :=
  match input with
  | .scancode code => (s.kernel.keyboardHandler b code).map fun k ↦ ⟨k, code :: s.codes⟩
  | .other a => (s.kernel.step b a).map fun k ↦ ⟨k, s.codes⟩

/-- `keys_state` is 1 for Shift and 2 for CapsLock. -/
def RowRight (s : Typist) : Prop :=
  s.kernel.keyboard.keysState = (shiftOn s.codes).toNat + 2 * (capsOn s.codes).toNat

/-- A key enters its character, if it enters any. -/
def EntersRight (s : Typist) (code : UInt8) : Prop :=
  scan code = .other → code.toNat < numKeys → s.kernel.keyboard.ctrlPressed = false →
    s.kernel.keyPressedHandler code =
      s.kernel.enterChar (charOf code (shiftOn s.codes) (capsOn s.codes))

structure FlagsRight (s : Typist) : Prop where
  shift : s.kernel.keyboard.shiftPressed = shiftOn s.codes
  caps : s.kernel.keyboard.capslockState = capsOn s.codes

/-- CapsLock is not pressed while Shift is held. -/
def Regular (s : Typist) : Input → Prop
  | .scancode code => scan code = .capslock → shiftOn s.codes = false
  | .other _ => True

variable {s s' : Typist} {input : Input} {codes : List UInt8}

theorem shiftOn_shift {pressed : Bool} (h : scan code = .shift pressed) :
    shiftOn (code :: codes) = pressed := by
  simp only [shiftOn, h]

theorem shiftOn_other (h : ∀ pressed, scan code ≠ .shift pressed) :
    shiftOn (code :: codes) = shiftOn codes := by
  rw [shiftOn]
  split
  · rename_i pressed hshift
    exact absurd hshift (h pressed)
  · rfl

theorem capsOn_capslock (h : scan code = .capslock) : capsOn (code :: codes) = !capsOn codes := by
  have hcount : (code :: codes).countP (scan · = .capslock) =
      codes.countP (scan · = .capslock) + 1 := List.countP_cons_of_pos (by simpa using h)
  rw [capsOn, capsOn, hcount, ← decide_not, decide_eq_decide]
  omega

theorem capsOn_other (h : scan code ≠ .capslock) : capsOn (code :: codes) = capsOn codes := by
  rw [capsOn, capsOn, List.countP_cons_of_neg (by simpa using h)]

theorem keyPressed_modifiers : SameModifiers k (k.keyPressedHandler code) := by
  rw [Kernel.keyPressedHandler]
  split_ifs
  · rfl
  · exact .pressKey .ctrlL
  · rfl
  · exact .pressKey (.char _)

theorem handler_cases (h : k.keyboardHandler b code = some k') :
    (∃ pressed, scan code = .shift pressed ∧ k' = k.setShift pressed) ∨
    (scan code = .capslock ∧ k' = k.toggleCapslock) ∨
    ((∀ pressed, scan code ≠ .shift pressed) ∧ scan code ≠ .capslock ∧ SameModifiers k k') := by
  have hsame (hshift : ∀ pressed, scan code ≠ .shift pressed) (hcaps : scan code ≠ .capslock) :
      SameModifiers k k' := by
    rw [Kernel.keyboardHandler] at h
    cases hcode : scan code with
    | shift pressed => exact absurd hcode (hshift pressed)
    | capslock => exact absurd hcode hcaps
    | ignored =>
      rw [hcode] at h
      obtain rfl := Option.some.inj h
      rfl
    | ctrl pressed =>
      rw [hcode] at h
      obtain rfl := Option.some.inj h
      rfl
    | alt pressed =>
      rw [hcode] at h
      obtain rfl := Option.some.inj h
      rfl
    | terminal term =>
      simp only [hcode] at h
      split_ifs at h
      · exact .switch h
      · obtain rfl := Option.some.inj h
        rfl
    | arrowLeft =>
      rw [hcode] at h
      obtain rfl := Option.some.inj h
      exact .pressKey .left
    | arrowRight =>
      rw [hcode] at h
      obtain rfl := Option.some.inj h
      exact .pressKey .right
    | enter =>
      rw [hcode] at h
      obtain rfl := Option.some.inj h
      rfl
    | backspace =>
      rw [hcode] at h
      obtain rfl := Option.some.inj h
      exact .pressKey .backspace
    | other =>
      rw [hcode] at h
      obtain rfl := Option.some.inj h
      exact keyPressed_modifiers
  by_cases hshift : ∃ pressed, scan code = .shift pressed
  · obtain ⟨pressed, hshift⟩ := hshift
    rw [Kernel.keyboardHandler, hshift] at h
    exact .inl ⟨pressed, hshift, (Option.some.inj h).symm⟩
  · have hshift := not_exists.mp hshift
    by_cases hcaps : scan code = .capslock
    · rw [Kernel.keyboardHandler, hcaps] at h
      exact .inr (.inl ⟨hcaps, (Option.some.inj h).symm⟩)
    · exact .inr (.inr ⟨hshift, hcaps, hsame hshift hcaps⟩)

theorem FlagsRight.step (hf : s.FlagsRight) (hs : s.step b input = some s') : s'.FlagsRight := by
  cases input with
  | scancode code =>
    obtain ⟨k, hk, rfl⟩ := Option.map_eq_some_iff.mp hs
    rcases handler_cases hk with
      ⟨pressed, hshift, rfl⟩ | ⟨hcaps, rfl⟩ | ⟨hshift, hcaps, hsame⟩
    · refine ⟨(shiftOn_shift hshift).symm, hf.caps.trans (capsOn_other ?_).symm⟩
      rw [hshift]
      rintro ⟨⟩
    · refine ⟨hf.shift.trans (shiftOn_other fun pressed ↦ ?_).symm, ?_⟩
      · rw [hcaps]
        rintro ⟨⟩
      · exact (congrArg (!·) hf.caps).trans (capsOn_capslock hcaps).symm
    · obtain ⟨hs, hc, -⟩ := Modifiers.mk.inj hsame
      exact ⟨hs.trans (hf.shift.trans (shiftOn_other hshift).symm),
        hc.trans (hf.caps.trans (capsOn_other hcaps).symm)⟩
  | other a =>
    obtain ⟨k, hk, rfl⟩ := Option.map_eq_some_iff.mp hs
    obtain ⟨hs, hc, -⟩ := Modifiers.mk.inj (SameModifiers.step hk)
    exact ⟨hs.trans hf.shift, hc.trans hf.caps⟩

/-- CapsLock loses sight of Shift, and nothing else does. -/
theorem RowRight.step_iff (h : s.RowRight) (hf : s.FlagsRight) (hs : s.step b input = some s') :
    s'.RowRight ↔ s.Regular input := by
  cases input with
  | scancode code =>
    obtain ⟨k, hk, rfl⟩ := Option.map_eq_some_iff.mp hs
    rcases handler_cases hk with
      ⟨pressed, hshift, rfl⟩ | ⟨hcaps, rfl⟩ | ⟨hshift, hcaps, hsame⟩
    · have hno : scan code ≠ .capslock := by
        rw [hshift]
        rintro ⟨⟩
      refine iff_of_true ?_ fun hcaps ↦ absurd hcaps hno
      rw [RowRight, shiftOn_shift hshift, capsOn_other hno, ← hf.caps]
      simp only [Kernel.setShift]
      cases pressed <;> cases s.kernel.keyboard.capslockState <;> rfl
    · have hno (pressed : Bool) : scan code ≠ .shift pressed := by
        rw [hcaps]
        rintro ⟨⟩
      have hregular : s.Regular (.scancode code) ↔ shiftOn s.codes = false :=
        ⟨fun h ↦ h hcaps, fun h _ ↦ h⟩
      rw [hregular, RowRight, shiftOn_other hno, capsOn_capslock hcaps, ← hf.caps]
      simp only [Kernel.toggleCapslock]
      cases s.kernel.keyboard.capslockState <;> cases shiftOn s.codes <;> decide
    · refine iff_of_true ?_ fun h ↦ absurd h hcaps
      rw [RowRight, shiftOn_other hshift, capsOn_other hcaps, ← h]
      exact (Modifiers.mk.inj hsame).2.2
  | other a =>
    obtain ⟨k, hk, rfl⟩ := Option.map_eq_some_iff.mp hs
    refine iff_of_true ?_ trivial
    rw [RowRight, ← h]
    exact (Modifiers.mk.inj (SameModifiers.step hk)).2.2

/-- Of the tables only the one for both modifiers is wrong, and only for one key. -/
theorem table_right : ∀ n < numKeys, ∀ shift caps : Bool,
    (n = 0x2B ∧ shift = true ∧ caps = true) ∨
      keyScancodes (shift.toNat + 2 * caps.toNat) (UInt8.ofNat n) =
        charOf (UInt8.ofNat n) shift caps := by decide

/-- The key of the backslash is pressed with both modifiers, and there is room in the
line. -/
structure OnBar (s : Typist) (code : UInt8) : Prop where
  key : code = 0x2B
  shift : shiftOn s.codes = true
  caps : capsOn s.codes = true
  ctrl : s.kernel.keyboard.ctrlPressed = false
  room : s.kernel.keyboard.keyBufferPos.toNat < keyBufferSize

theorem keyPressed_eq (h : s.RowRight) (hlt : code.toNat < numKeys)
    (hctrl : s.kernel.keyboard.ctrlPressed = false) : s.kernel.keyPressedHandler code =
      s.kernel.enterChar (keyScancodes ((shiftOn s.codes).toNat + 2 * (capsOn s.codes).toNat)
        code) := by
  rw [Kernel.keyPressedHandler, if_neg (Nat.not_le.mpr hlt), hctrl, if_neg Bool.false_ne_true, h]

theorem enterChar_inj {c d : UInt8} (hc : c ≠ 0) (hd : d ≠ 0)
    (hlt : k.keyboard.keyBufferPos.toNat < keyBufferSize) (h : k.enterChar c = k.enterChar d) :
    c = d := by
  obtain ⟨hkeys, -⟩ := Kernel.enterChar_stored hlt hc
  obtain ⟨hkeys', -⟩ := Kernel.enterChar_stored hlt hd
  have hsame := congrArg (KeyBuffer.charAt · k.keyboard.keyBufferPos.toNat)
    (hkeys.symm.trans ((congrArg Kernel.keys h).trans hkeys'))
  simpa only [KeyBuffer.charAt_put hlt, if_true] using hsame

theorem entersRight_iff (h : s.RowRight) : s.EntersRight code ↔ ¬ s.OnBar code := by
  constructor
  · rintro henters ⟨rfl, hshift, hcaps, hctrl, hroom⟩
    have heq := henters (by decide) (by decide) hctrl
    rw [keyPressed_eq h (by decide) hctrl, hshift, hcaps] at heq
    exact absurd (enterChar_inj (by decide) (by decide) hroom heq) (by decide)
  · intro hbar hother hlt hctrl
    rw [keyPressed_eq h hlt hctrl]
    rcases table_right code.toNat hlt (shiftOn s.codes) (capsOn s.codes) with
      ⟨hkey, hshift, hcaps⟩ | hright
    · have hfull : keyBufferSize ≤ s.kernel.keyboard.keyBufferPos.toNat := by
        by_contra hroom
        exact hbar ⟨UInt8.toNat_inj.mp hkey, hshift, hcaps, hctrl, not_le.mp hroom⟩
      rw [Kernel.enterChar_full hfull, Kernel.enterChar_full hfull]
    · rw [UInt8.ofNat_toNat] at hright
      rw [hright]

/-- The modifiers are kept track of, and every key enters its character, exactly as long
as CapsLock is not pressed while Shift is held and the key of the backslash not with
both. -/
theorem modifiers_iff {inputs : List Input} {t : Typist} (hb : Boots b m k)
    (hr : run (step b) ⟨k, []⟩ inputs = some t) :
    ((∀ u, Passes (step b) ⟨k, []⟩ inputs u → u.RowRight) ∧
      ∀ u code, Visits (step b) ⟨k, []⟩ inputs u (.scancode code) → u.EntersRight code) ↔
    ∀ u code, Visits (step b) ⟨k, []⟩ inputs u (.scancode code) →
      (scan code = .capslock → shiftOn u.codes = false) ∧ ¬ u.OnBar code := by
  have hkeyboard := (boots_lines hb).1
  have hflags : (⟨k, []⟩ : Typist).FlagsRight :=
    ⟨congrArg Keyboard.shiftPressed hkeyboard, congrArg Keyboard.capslockState hkeyboard⟩
  have hrow : (⟨k, []⟩ : Typist).RowRight := congrArg Keyboard.keysState hkeyboard
  have hiff := forall_passes_iff (fun u input v hf _ hs ↦ hf.step hs)
    (fun u input v hf h hs ↦ h.step_iff hf hs) hrow hflags hr
  constructor
  · rintro ⟨hrows, henters⟩ u code hv
    exact ⟨hiff.mp hrows u _ hv, (entersRight_iff (hrows u hv.passes)).mp (henters u code hv)⟩
  · intro hguard
    have hrows := hiff.mpr fun u input hv ↦ by
      cases input with
      | scancode code => exact (hguard u code hv).1
      | other a => trivial
    exact ⟨hrows, fun u code hv ↦ (entersRight_iff (hrows u hv.passes)).mpr (hguard u code hv).2⟩

section Sample

theorem codes_run (k : Kernel) {c d : UInt8} {k₁ k₂ : Kernel}
    (hc : k.keyboardHandler b c = some k₁) (hd : k₁.keyboardHandler b d = some k₂) :
    run (step b) ⟨k, []⟩ [.scancode c, .scancode d] = some ⟨k₂, [d, c]⟩ := by
  refine run_cons_eq_some.mpr ⟨⟨k₁, [c]⟩, ?_, run_cons_eq_some.mpr ⟨⟨k₂, [d, c]⟩, ?_, rfl⟩⟩
  · exact congrArg (Option.map _) hc
  · exact congrArg (Option.map _) hd

/-- CapsLock under Shift makes the next letter upper case, and with both of them on the
key of the backslash enters a backslash. -/
theorem capslock_forgets_shift : ∃ k u v, Boots sampleBuild sampleMachine k ∧
    run (step sampleBuild) ⟨k, []⟩ [.scancode shiftL, .scancode capslock] = some u ∧
    shiftOn u.codes = true ∧ capsOn u.codes = true ∧ u.kernel.keyboard.keysState = 2 ∧
    ¬ u.RowRight ∧ u.kernel.keyPressedHandler 0x1E = u.kernel.enterChar 65 ∧
    charOf 0x1E true true = 97 ∧
    run (step sampleBuild) ⟨k, []⟩ [.scancode capslock, .scancode shiftL] = some v ∧
    v.RowRight ∧ ¬ v.EntersRight 0x2B := by
  obtain ⟨k, hb⟩ := sample_boots
  have hkeyboard := (boots_lines hb).1
  have hshift (k : Kernel) : k.keyboardHandler sampleBuild shiftL = some (k.setShift true) := rfl
  have hcaps (k : Kernel) : k.keyboardHandler sampleBuild capslock = some k.toggleCapslock := rfl
  have hrow : ((k.setShift true).toggleCapslock).keyboard.keysState = 2 := by
    simp only [Kernel.toggleCapslock, Kernel.setShift, hkeyboard]
    rfl
  have hrow' : (k.toggleCapslock.setShift true).keyboard.keysState = 3 := by
    simp only [Kernel.toggleCapslock, Kernel.setShift, hkeyboard]
    rfl
  have hctrl : ((k.setShift true).toggleCapslock).keyboard.ctrlPressed = false := by
    simp only [Kernel.toggleCapslock, Kernel.setShift, hkeyboard]
    rfl
  have hboth : shiftOn [capslock, shiftL] = true ∧ capsOn [capslock, shiftL] = true := by decide
  have hboth' : shiftOn [shiftL, capslock] = true ∧ capsOn [shiftL, capslock] = true := by decide
  have hright : (⟨k.toggleCapslock.setShift true, [shiftL, capslock]⟩ : Typist).RowRight := hrow'
  refine ⟨k, _, _, hb, codes_run k (hshift _) (hcaps _), hboth.1, hboth.2, hrow, fun h ↦ ?_, ?_,
    by decide, codes_run k (hcaps _) (hshift _), hright, fun h ↦ ?_⟩
  · rw [RowRight, hrow, hboth.1, hboth.2] at h
    exact absurd h (by decide)
  · rw [Kernel.keyPressedHandler, hrow, hctrl]
    rfl
  · refine (entersRight_iff hright).mp h ⟨rfl, hboth'.1, hboth'.2, ?_, ?_⟩
    · simp only [Kernel.toggleCapslock, Kernel.setShift, hkeyboard]
      rfl
    · simp only [Kernel.toggleCapslock, Kernel.setShift, hkeyboard]
      decide

theorem modifiers_iff_sample : ∃ k t, Boots sampleBuild sampleMachine k ∧
    run (step sampleBuild) ⟨k, []⟩ [.scancode capslock, .scancode shiftL] = some t ∧
    t.RowRight := by
  obtain ⟨k, hb⟩ := sample_boots
  have hcaps : k.keyboardHandler sampleBuild capslock = some k.toggleCapslock := rfl
  have hr := codes_run k hcaps
    (show k.toggleCapslock.keyboardHandler sampleBuild shiftL = some _ from rfl)
  refine ⟨k, _, hb, hr, ((modifiers_iff hb hr).mpr fun u code hv ↦ ?_).1 _ (.stop hr)⟩
  rcases visits_cons hv with ⟨rfl, he⟩ | ⟨s, hs, hv⟩
  · obtain rfl := Input.scancode.inj he
    exact ⟨fun _ ↦ rfl, fun h ↦ absurd h.key (by decide)⟩
  · obtain ⟨rfl, he⟩ := visits_singleton hv
    obtain rfl := Input.scancode.inj he
    exact ⟨fun h ↦ absurd h (by decide), fun h ↦ absurd h.key (by decide)⟩

end Sample

end Typist

end ApollOS
