import ApollOS.Kernel.Process

namespace ApollOS

def screenBytes : ℕ := 2 * numRows * numCols

/-- The colours of the terminals: `ATTRIB_B`, `ATTRIB_G` and `ATTRIB_Y`. -/
def attrib (t : Fin maxTerminals) : UInt8 :=
  match t with
  | 0 => 0xB
  | 1 => 0xA
  | 2 => 0xE

def blankPage (m : Memory) (page : ℤ) (color : UInt8) : Memory := fun a ↦
  if page ≤ a ∧ a < page + screenBytes then if (a - page) % 2 = 0 then 32 else color else m a

def banner : List (List UInt8) :=
  [ascii "    _      ____     ___    _       _        ___             ___    ____  \n",
    ascii "   / \\    |  _ \\   / _ \\  | |     | |      / _ \\           / _ \\  / ___| \n",
    ascii "  / _ \\   | |_) | | | | | | |     | |     | | | |         | | | | \\___ \\ \n",
    ascii " / ___ \\  |  __/  | |_| | | |___  | |___  | |_| |         | |_| |  ___) |\n",
    ascii "/_/   \\_\\ |_|      \\___/  |_____| |_____|  \\___/   _____   \\___/  |____/ \n",
    ascii "                                                  |_____|                \n"]

namespace Kernel

variable (b : Build) (k : Kernel) (term : Fin maxTerminals)

def terminalSave : Kernel :=
  let k' := k.setTerminal term fun t ↦
    { t with
      keyBufferPos := k.keyboard.keyBufferPos
      posX := k.console.screenX
      posY := k.console.screenY }
  { k' with console := { k.console with
    mem := memcpy k.console.mem (k.terminal term).vidMem video screenBytes } }

/-- What `terminal_load` and `terminal_start` both do: the terminal's line, cursor
and screen become the live ones. -/
def showTerminal : Kernel :=
  let t := k.terminal term
  let console := k.console.setScreenPos t.posX t.posY
  let console := console.updateCursorLoc console.screenX console.screenY
  { k with
    keyBuffer := term
    keyboard := { k.keyboard with keyBufferPos := t.keyBufferPos }
    console := { console with mem := memcpy console.mem video t.vidMem screenBytes } }

def terminalLoad : Kernel :=
  let t := k.terminal term
  let k := { k with
    esp0 := kernelStackTop t.termPid
    paging := k.paging.remap virtualStart (userBlock t.termPid) }
  k.showTerminal term

def printBanner : Kernel := { k with console := banner.foldl Console.puts k.console }

def terminalStart : Option (Kernel × Outcome) :=
  let k := k.setTerminal term fun t ↦ { t with init := true }
  let k := (k.showTerminal term).printBanner
  afterCall (k.launch b .terminalStart shellCommand) fun k ↦ some (k, .returned 0)

def switchTerminal : Option (Kernel × Outcome) :=
  if term = k.termCur then some (k, .returned 0)
  else if (k.terminal term).init = false ∧ k.canExecute = false then
    let message := ascii "\nPlease close processes before opening another teminal\n391OS> "
    some ({ k with console := k.console.puts message }, .returned 0)
  else
    let k := { k.terminalSave k.termCur with termCur := term }
    if (k.terminal term).init = false then
      afterCall (k.terminalStart b term) fun k ↦ some (k, .returned 0)
    else some (k.terminalLoad term, .returned 0)

/-- `init_terminals` before it starts the first terminal: each gets its page of
memory. -/
def resetTerminals : Kernel :=
  { k with
    terminal := fun t ↦ { k.terminal t with
      keyBuffer := KeyBuffer.empty
      keyBufferPos := 0
      posX := 0
      posY := 0
      numProcesses := 0
      init := false
      vidMem := termPage t }
    paging := ((k.paging.remapToPage b termMem (termPage 0) 1).remapToPage b termMem
      (termPage 1) 2).remapToPage b termMem (termPage 2) 3
    console := { k.console with
      mem := (List.finRange maxTerminals).foldl (fun m t ↦ blankPage m (termPage t) (attrib t))
        k.console.mem }
    termCur := 0 }

def initTerminals : Option (Kernel × Outcome) := (k.resetTerminals b).terminalStart b 0

end Kernel

/-- What is there when the kernel is entered: memory as the boot loader left it,
with the PCBs in it, the devices, and what `entry` prints of its findings. -/
structure Machine where
  mem : Memory
  pcb : ℕ → Pcb
  devices : Devices
  messages : List UInt8

/-- The kernel as `entry` has it when it calls `init_terminals`: variables hold
their static initial values. -/
def Machine.initial (b : Build) (m : Machine) : Kernel where
  console := (Console.clear ⟨m.mem, 0, 0, 0, []⟩).puts m.messages
  keyboard :=
    { keyBufferPos := 0
      enterPressed := false
      rightBound := 7
      shiftPressed := false
      capslockState := false
      ctrlPressed := false
      altPressed := false
      keysState := 0
      touched := [] }
  terminal _ :=
    { keyBuffer := KeyBuffer.empty
      keyBufferPos := 0
      posX := 0
      posY := 0
      termPid := 0
      vidMem := 0
      numProcesses := 0
      init := false }
  termCur := 0
  keyBuffer := 0
  paging := initPaging b ⟨fun _ ↦ 0, fun _ ↦ 0, fun _ ↦ 0⟩
  processesFlags := 0
  pcb := m.pcb
  esp0 := 0x800000
  devices := m.devices

def Boots (b : Build) (m : Machine) (k : Kernel) : Prop :=
  ∃ entry, (m.initial b).initTerminals b = some (k, .started entry)

end ApollOS
