import ApollOS.Kernel.Terminal

namespace ApollOS

def numKeys : ℕ := 60

/-- A row of `key_scancodes`; the initialisers leave the last place 0. -/
def keyRow (digits upper home lower : List UInt8) : List UInt8 :=
  [0, 0] ++ digits ++ [0, 0] ++ upper ++ [0, 0] ++ home ++ [0] ++ lower ++ [0] ++ ascii "*" ++
    [0] ++ ascii " " ++ [0, 0]

def keyRows : List (List UInt8) :=
  [keyRow (ascii "1234567890-=") (ascii "qwertyuiop[]") (ascii "asdfghjkl;'`")
      (ascii "\\zxcvbnm,./"),
    keyRow (ascii "!@#$%^&*()_+") (ascii "QWERTYUIOP\x7b\x7d") (ascii "ASDFGHJKL:\"~")
      (ascii "|ZXCVBNM<>?"),
    keyRow (ascii "1234567890-=") (ascii "QWERTYUIOP[]") (ascii "ASDFGHJKL;'`")
      (ascii "\\ZXCVBNM,./"),
    keyRow (ascii "!@#$%^&*()_+") (ascii "qwertyuiop\x7b\x7d") (ascii "asdfghjkl:\"~")
      (ascii "\\zxcvbnm<>?")]

def keyScancodes (state : ℕ) (scancode : UInt8) : UInt8 :=
  (keyRows.getD state []).getD scancode.toNat 0

def shiftL : UInt8 := 0x2A
def shiftR : UInt8 := 0x36
def capslock : UInt8 := 0x3A
def ctrl : UInt8 := 0x1D
def altL : UInt8 := 0x38

def releaseCode (key : UInt8) : UInt8 := key ||| 0x80

/-- The labels of the switch in `keyboard_handler`. -/
inductive Scan
  | ignored
  | shift (pressed : Bool)
  | capslock
  | ctrl (pressed : Bool)
  | alt (pressed : Bool)
  | terminal (term : Fin maxTerminals)
  | arrowLeft
  | arrowRight
  | enter
  | backspace
  | other
  deriving DecidableEq, Repr

def scan (scancode : UInt8) : Scan :=
  if scancode = 0xE0 then .ignored
  else if scancode = shiftL ∨ scancode = shiftR then .shift true
  else if scancode = releaseCode shiftL ∨ scancode = releaseCode shiftR then .shift false
  else if scancode = capslock then .capslock
  else if scancode = ctrl then .ctrl true
  else if scancode = releaseCode ctrl then .ctrl false
  else if scancode = altL then .alt true
  else if scancode = releaseCode altL then .alt false
  else if scancode = 0x3B then .terminal ⟨0, by decide⟩
  else if scancode = 0x3C then .terminal ⟨1, by decide⟩
  else if scancode = 0x3D then .terminal ⟨2, by decide⟩
  else if scancode = 0x4B then .arrowLeft
  else if scancode = 0x4D then .arrowRight
  else if scancode = 0x1C then .enter
  else if scancode = 0x0E then .backspace
  else .other

namespace Kernel

variable (b : Build) (k : Kernel)

def setShift (pressed : Bool) : Kernel :=
  { k with keyboard := { k.keyboard with
    shiftPressed := pressed
    keysState :=
      if pressed then if k.keyboard.capslockState then 3 else 1
      else if k.keyboard.capslockState then 2 else 0 } }

def toggleCapslock : Kernel :=
  { k with keyboard := { k.keyboard with
    capslockState := !k.keyboard.capslockState
    keysState := if k.keyboard.capslockState then 0 else 2 } }

def keyPressedHandler (scancode : UInt8) : Kernel :=
  if scancode.toNat ≥ numKeys then k
  else if k.keyboard.ctrlPressed then
    if keyScancodes k.keyboard.keysState scancode = 108 then k.clearScreen else k
  else k.enterChar (keyScancodes k.keyboard.keysState scancode)

/-- `none` when a terminal that is switched to cannot start its shell. -/
def keyboardHandler (scancode : UInt8) : Option Kernel :=
  match scan scancode with
  | .ignored => some k
  | .shift pressed => some (k.setShift pressed)
  | .capslock => some k.toggleCapslock
  | .ctrl pressed => some { k with keyboard := { k.keyboard with ctrlPressed := pressed } }
  | .alt pressed => some { k with keyboard := { k.keyboard with altPressed := pressed } }
  | .terminal term =>
    if k.keyboard.altPressed then (k.switchTerminal b term).map Prod.fst else some k
  | .arrowLeft => some k.moveCursorLeft
  | .arrowRight => some k.moveCursorRight
  | .enter => some k.handleEnter
  | .backspace => some k.handleBackpace
  | .other => some (k.keyPressedHandler scancode)

end Kernel

end ApollOS
