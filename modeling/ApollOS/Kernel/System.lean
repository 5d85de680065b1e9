import ApollOS.Foundation.Runs
import ApollOS.Kernel.Terminal

namespace ApollOS

/-- What happens on the console: a key is pressed, the running program prints a
byte or reads a line, the user changes to another terminal. -/
inductive Event
  | key (key : Key)
  | output (c : UInt8)
  | read (nbytes : ℤ)
  | switch (term : Fin maxTerminals)
  deriving DecidableEq, Repr

/-- Everything that changes the kernel's state from one moment in user mode to
the next. An exception prints its message and halts. -/
inductive Action
  | console (event : Event)
  | execute (command : Option Command)
  | halt (status : UInt8)
  | vidmap (screenStart : UInt32)
  | fdCall (call : FdCall)

namespace Kernel

variable (b : Build) (k : Kernel)

/-- The addresses are compared as signed numbers. The word stored through the
pointer is `VIRTUAL_END`. -/
def vidmap (screenStart : UInt32) : Option (Kernel × ℤ) :=
  if screenStart = 0 then some (k, -1)
  else if screenStart.toInt32.toInt < virtualStart ∨ screenStart.toInt32.toInt > virtualEnd then
    some (k, -1)
  else
    let paging := k.paging.remapWithPageTable b virtualEnd (vidMemLoc * fourKb)
    (storeBytes b paging [0, 0, 0x40, 0x08] screenStart.toNat k.console.mem).map fun mem ↦
      ({ k with paging := paging, console := { k.console with mem := mem } }, 0)

/-- `getargs` of process `p`: the return value and the bytes stored in the buffer, of
which it only matters whether it is NULL. Behind the array `args` lies `behind`. -/
def getargs (p : ℕ) (behind : ℕ → UInt8) (buf : Bool) (nbytes : ℤ) : ℤ × List UInt8 :=
  if buf = false then (-1, [])
  else
    let args (i : ℕ) : UInt8 := if i < maxArgsLength then cstr (k.pcb p).args i else behind i
    if args 0 = 0 then (-1, [])
    else
      let nbytes := if nbytes > maxArgsLength then (maxArgsLength : ℤ) else nbytes
      (0, (List.range (UInt32.ofInt nbytes).toNat).map args)

def event (e : Event) : Option Kernel :=
  match e with
  | .key key => some (k.pressKey key)
  | .output c => some { k with console := k.console.putc c }
  | .read nbytes => (k.terminalRead nbytes).map Prod.fst
  | .switch term => (k.switchTerminal b term).map Prod.fst

/-- `none` when the action has to wait, or when the kernel itself faults. -/
def step (a : Action) : Option Kernel :=
  match a with
  | .console e => k.event b e
  | .execute command => (k.execute b command).map Prod.fst
  | .halt status => (k.halt b status).map Prod.fst
  | .vidmap screenStart => (k.vidmap b screenStart).map Prod.fst
  | .fdCall call => (k.fdCall b k.runningPid call).map Prod.fst

end Kernel

end ApollOS
