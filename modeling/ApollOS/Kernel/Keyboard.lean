import ApollOS.Kernel.Screen

namespace ApollOS

/-- The byte at an index of a key buffer. Past the array lie the padding bytes
of `terminal_t`, which stay NUL. -/
def KeyBuffer.charAt (buf : KeyBuffer) (i : ℕ) : UInt8 := buf[i]?.getD 0

def KeyBuffer.put (buf : KeyBuffer) (i : ℕ) (c : UInt8) : KeyBuffer := buf.setIfInBounds i c

def KeyBuffer.empty : KeyBuffer := Vector.replicate keyBufferSize 0

inductive Key
  | char (c : UInt8)
  | backspace
  | enter
  | ctrlL
  | left
  | right
  deriving DecidableEq, Repr

namespace Kernel

variable (k : Kernel)

def keys : KeyBuffer := (k.terminal k.keyBuffer).keyBuffer

def storeKey (i : ℕ) (c : UInt8) : Kernel :=
  { k.setTerminal k.keyBuffer fun t ↦ { t with keyBuffer := t.keyBuffer.put i c } with
    keyboard := { k.keyboard with touched := i :: k.keyboard.touched } }

/-- The last branch of `key_pressed_handler`, for the table's character. -/
def enterChar (c : UInt8) : Kernel :=
  if k.keyboard.keyBufferPos < keyBufferSize.toUInt32 then
    if c = 0 then k
    else
      let k := k.storeKey k.keyboard.keyBufferPos.toNat c
      { k with
        keyboard := { k.keyboard with
          keyBufferPos := k.keyboard.keyBufferPos + 1
          rightBound := k.keyboard.rightBound + 1 }
        console := k.console.putc c }
  else k

/-- The branch of `key_pressed_handler` for Ctrl+L. -/
def clearScreen : Kernel :=
  { k with console := k.console.clear, keyboard := { k.keyboard with keyBufferPos := 0 } }

def clearBuffer : Kernel :=
  { k.setTerminal k.keyBuffer fun t ↦ { t with keyBuffer := KeyBuffer.empty } with
    keyboard := { k.keyboard with
      keyBufferPos := 0
      rightBound := 7
      touched := List.range keyBufferSize ++ k.keyboard.touched } }

def handleEnter : Kernel :=
  { k with
    keyboard := { k.keyboard with enterPressed := true, rightBound := 7 }
    console := k.console.doEnter }

def handleBackpace : Kernel :=
  if k.keyboard.keyBufferPos > 0 then
    let pos := k.keyboard.keyBufferPos - 1
    let k := k.storeKey pos.toNat 0
    { k with
      keyboard := { k.keyboard with keyBufferPos := pos, rightBound := k.keyboard.rightBound - 1 }
      console := k.console.doBackspace }
  else k

def moveCursorLeft : Kernel :=
  if k.console.screenX ≠ 7 then
    let x := k.console.screenX - 1
    let y := k.console.screenY
    { k with
      console := (k.console.setScreenPos x y).updateCursorLoc x y
      keyboard := { k.keyboard with keyBufferPos := k.keyboard.keyBufferPos - 1 } }
  else k

def moveCursorRight : Kernel :=
  if k.console.screenX < k.keyboard.rightBound then
    let x := k.console.screenX + 1
    let y := k.console.screenY
    { k with
      console := (k.console.setScreenPos x y).updateCursorLoc x y
      keyboard := { k.keyboard with keyBufferPos := k.keyboard.keyBufferPos + 1 } }
  else k

def pressKey : Key → Kernel
  | .char c => k.enterChar c
  | .backspace => k.handleBackpace
  | .enter => k.handleEnter
  | .ctrlL => k.clearScreen
  | .left => k.moveCursorLeft
  | .right => k.moveCursorRight

/-- The copying loop of `terminal_read` from index `i`, with `n` bytes of room
left. -/
def readLoop (buf : KeyBuffer) : ℕ → ℕ → List UInt8
  | 0, _ => []
  | n + 1, i => if buf.charAt i = 0 then [] else buf.charAt i :: readLoop buf n (i + 1)

/-- `none` while no Enter has been pressed: the reader spins. The loop test
reads `key_buffer[i]` once more than bytes are copied. -/
def terminalRead (nbytes : ℤ) : Option (Kernel × List UInt8) :=
  if k.keyboard.enterPressed then
    let bytes := readLoop k.keys nbytes.toNat 0
    let k := { k with keyboard := { k.keyboard with
      enterPressed := false
      touched := List.range (bytes.length + 1) ++ k.keyboard.touched } }
    some (k.clearBuffer, bytes)
  else none

/-- `terminal_write`: the bytes up to a NUL go to the screen and are counted. -/
def terminalWrite (buf : ℕ → UInt8) (nbytes : ℤ) : Kernel × ℤ :=
  let bytes := ((List.range nbytes.toNat).map buf).takeWhile (· ≠ 0)
  ({ k with console := k.console.puts bytes }, bytes.length)

end Kernel

end ApollOS
