import ApollOS.Console.EchoedLine
import ApollOS.Console.LineDiscipline
import ApollOS.Console.ScreenBounds
import ApollOS.Process.ExecuteDecision
import ApollOS.Process.ExitStatus
import ApollOS.Process.Unwinding
import ApollOS.Programs.FilePrinting
import ApollOS.Programs.Shell

namespace ApollOS

open Function Fuel Runs FixedField SlotTable

/-- A program that a process can run: what its `main` does with the calls of the library. -/
abbrev UserMain := LibraryCalls Sharing → ℕ → Sharing → Option (Sharing × ℤ)

def nobody : ℕ → Kernel → List Occurrence := fun _ _ ↦ []

/-- The machine, and the lines that the user in front of it is still going to type. -/
structure Seat where
  kernel : Kernel
  typed : List (List UInt8)

def keystrokes (line : List UInt8) : List Action :=
  line.map (fun c ↦ .console (.key (.char c))) ++ [.console (.key .enter)]

/-- The command that `execute` finds behind a pointer; `none` if its words do not fit. -/
def commandAt (s : ℕ → UInt8) : Option Command :=
  let text := content 0 bufSize s
  if h : (commandWord text).length < commandSize ∧ (commandArgs text).length < commandSize then
    some ⟨text, h.1, h.2⟩
  else none

namespace Seat

variable (b : Build) (s : StackUse) (behind : ℕ → UInt8) (programs : UInt32 → Option UserMain)

/-- The process that runs in `k` comes to the end of `main`, and is halted with its value. -/
def finish (fuel : ℕ) (main : UserMain) (st : Seat) (k : Kernel) : Option (Seat × ℤ) := do
  let (sh, status) ← main (sharedCalls b s k.runningPid behind nobody) fuel ⟨k, 0, []⟩
  match sh.kernel.haltWith b (sh.kernel.currentPid (s.atPcb .halt)) (UInt8.ofInt status) with
  | some (k, .resumed status) => some ({ st with kernel := k }, status.toNat)
  | _ => none

/-- The system call `execute` of a process that waits for what it starts. The file of the command
holds the program that `programs` has for its inode. -/
def execute (fuel : ℕ) (text : ℕ → UInt8) (st : Seat) : Option (Seat × ℤ) := do
  let command ← commandAt text
  match st.kernel.executeWith b (st.kernel.currentPid (s.atPcb .execute)) (some command) with
  | some (k, .returned v) => some ({ st with kernel := k }, v)
  | some (k, .started _) =>
    let dentry ← readDentryByName b.image (cstr (commandWord command.text))
    let main ← programs dentry.inodeNum
    st.finish b s behind fuel main k
  | _ => none

/-- When a read has to wait, the user types the next line. -/
def read (fd : ℤ) (n : ℕ) (st : Seat) : Option (Seat × ℤ × List UInt8) :=
  match st.kernel.readFd b (st.kernel.currentPid (s.atPcb .readFd)) fd true n with
  | some (k, r, bytes) => some ({ st with kernel := k }, r, bytes)
  | none =>
    match st.typed with
    | [] => none
    | line :: lines => do
      let k ← run (Kernel.step b) st.kernel (keystrokes line)
      let (k, r, bytes) ← k.readFd b (k.currentPid (s.atPcb .readFd)) fd true n
      some (⟨k, lines⟩, r, bytes)

end Seat

/-- The system calls of a shell, each for the PCB that it finds. -/
def seatCalls (b : Build) (s : StackUse) (behind : ℕ → UInt8)
    (programs : UInt32 → Option UserMain) : ShellCalls Seat where
  ece391Open filename st :=
    let (k, r) := st.kernel.openFd b (st.kernel.currentPid (s.atPcb .openFd)) (some filename)
    ({ st with kernel := k }, r)
  ece391Read fd n st := st.read b s fd n
  ece391Write fd bytes st :=
    let (k, r) := st.kernel.writeFd (st.kernel.currentPid (s.atPcb .writeFd)) fd
      (some (cstr bytes)) bytes.length
    ({ st with kernel := k }, r)
  ece391Close fd st :=
    let (k, r) := st.kernel.closeFd (st.kernel.currentPid (s.atPcb .closeFd)) fd
    ({ st with kernel := k }, r)
  ece391Getargs n st :=
    (st, st.kernel.getargs (st.kernel.currentPid (s.atPcb .getargs)) behind true n)
  ece391Execute fuel text st := st.execute b s behind programs fuel text

variable {b : Build} {m : Machine} {s : StackUse} {start k k' k₀ : Kernel} {n p : ℕ}
  {xs : List Occurrence} {line out bytes : List UInt8} {lines : List (List UInt8)} {st : Seat}
  {behind : ℕ → UInt8} {programs : UInt32 → Option UserMain}
  {held held' : Fin maxTerminals → List ℕ} {c : UInt8}

section Keyboard

/-- From `start` the characters of `line` have been typed, and nothing else has happened. -/
structure Entered (start : Kernel) (line : List UInt8) (k : Kernel) : Prop extends
    Local ∅ start k where
  typed : Typed k line
  clear : ∀ j, line.length ≤ j → k.keys.charAt j = 0
  waiting : k.keyboard.enterPressed = false
  console : k.console = start.console.puts line

theorem FreshLine.entered (h : FreshLine k) : Entered k [] k where
  __ := Local.refl k
  typed := .nil (by rw [h.pos]; rfl)
  clear j _ := by rw [h.keys, KeyBuffer.charAt_empty]
  waiting := h.enter
  console := rfl

theorem Entered.char (h : Entered start line k) (hc : c ≠ 0) (hlt : line.length < keyBufferSize) :
    Entered start (line ++ [c]) (k.pressKey (.char c)) := by
  have hpos := h.typed.pos ▸ hlt
  obtain ⟨hkeys, hnext, henter⟩ := Kernel.enterChar_stored hpos hc
  refine ⟨h.toLocal.trans (.pressKey _), h.typed.insert hlt hc hkeys hnext, fun j hj ↦ ?_,
    henter.trans h.waiting, ?_⟩
  · rw [List.length_append, List.length_singleton] at hj
    rw [Kernel.pressKey, hkeys, h.typed.pos, KeyBuffer.charAt_put hlt, if_neg (by omega)]
    exact h.clear j (by omega)
  · rw [Kernel.pressKey, Kernel.enterChar_console hpos hc, h.console, Console.puts, Console.puts,
      List.foldl_append]
    rfl

theorem Entered.chars (h : Entered start line k) (text : List UInt8) (hnul : 0 ∉ text)
    (hlen : (line ++ text).length ≤ keyBufferSize) : ∃ k',
      run (Kernel.step b) k (text.map fun c ↦ .console (.key (.char c))) = some k' ∧
      Entered start (line ++ text) k' := by
  induction text generalizing line k with
  | nil =>
    refine ⟨k, rfl, ?_⟩
    rwa [List.append_nil]
  | cons c text ih =>
    have hc : c ≠ 0 := fun he ↦ hnul (he ▸ List.mem_cons_self)
    have hlt : line.length < keyBufferSize := by
      rw [List.length_append, List.length_cons] at hlen
      omega
    rw [List.append_cons] at hlen
    obtain ⟨k', hr, hentered⟩ := ih (h.char hc hlt)
      (fun hmem ↦ hnul (List.mem_cons_of_mem c hmem)) hlen
    refine ⟨k', run_cons_eq_some.mpr ⟨_, rfl, hr⟩, ?_⟩
    rwa [List.append_cons]

/-- A line that has been typed stands on the screen, and the next read delivers it. -/
theorem FreshLine.keystrokes (h : FreshLine k) (htyp : Typable line) : ∃ k',
    run (Kernel.step b) k (keystrokes line) = some k' ∧ Local ∅ k k' ∧
      k'.keyboard.enterPressed = true ∧ KeyBuffer.Spells k'.keys 0 line ∧
      k'.console = k.console.puts (line ++ ['\n'.toUInt8]) := by
  obtain ⟨k₁, hr, hentered⟩ := h.entered.chars (b := b) line htyp.nonzero htyp.fits.le
  rw [List.nil_append] at hentered
  refine ⟨k₁.handleEnter, ?_, hentered.toLocal.trans (.pressKey .enter), rfl,
    hentered.typed.spells (.inr ?_), ?_⟩
  · rw [ApollOS.keystrokes, run_append, hr]
    rfl
  · exact hentered.typed.pos ▸ hentered.clear _ le_rfl
  · have hbreak : (k.console.puts line).putc '\n'.toUInt8 = (k.console.puts line).doEnter := rfl
    rw [Console.puts, List.foldl_append]
    exact (congrArg Console.doEnter hentered.console).trans hbreak.symm

theorem Contained.char : Contained k (.key (.char c)) :=
  ⟨trivial, fun he ↦ by cases he⟩

theorem Contained.enter : Contained k (.key .enter) :=
  ⟨trivial, fun he ↦ by cases he⟩

theorem Contained.read (nbytes : ℤ) : Contained k (.read nbytes) :=
  ⟨trivial, fun he ↦ by cases he⟩

theorem keystrokes_contained {e : Event} (h : .console e ∈ keystrokes line) : Contained k e := by
  rcases List.mem_append.mp h with hc | henter
  · obtain ⟨c, -, he⟩ := List.mem_map.mp hc
    cases he
    exact .char
  · cases List.mem_singleton.mp henter
    exact .enter

end Keyboard

section Screen

variable {c c' : Console} {mem : Memory} {command : Command} {text : List UInt8}

theorem Console.page_puts (h : c.OnScreen) (h' : c'.OnScreen) (hpage : c'.page = c.page)
    (text : List UInt8) : (c'.puts text).page = (c.puts text).page := by
  rw [puts_page h', puts_page h, hpage]

theorem Console.puts_append (c : Console) (s t : List UInt8) :
    c.puts (s ++ t) = (c.puts s).puts t := by
  rw [puts, puts, puts, List.foldl_append]

/-- What a program is loaded into does not appear on the screen. -/
theorem Kernel.Loads.page (h : k.Loads b command p mem) (hp : p < maxProcesses)
    (hl : Loadable b.image command) : { k.console with mem := mem }.page = k.console.page := by
  refine Console.page_eq (fun row hrow col hcol ↦ ?_)
    (fun row col hout ↦ Console.page_cell_out hout)
    rfl rfl
  have hbelow : cellAddr col row < userBlock p := by
    simp only [cellAddr, video, numCols, numRows, userBlock, physicalStart, fourMb] at *
    omega
  rw [Console.page_cell hrow hcol]
  exact h.frame hp hl (.inl hbelow)

end Screen

section Lines

variable {site : CallSite} {args : List UInt8} {mem : Memory}

theorem FreshLine.congr (h : FreshLine k) (hkeys : k'.keys = k.keys)
    (hkeyboard : k'.keyboard = k.keyboard) : FreshLine k' :=
  ⟨hkeys.trans h.keys, hkeyboard ▸ h.pos, hkeyboard ▸ h.enter⟩

theorem Kernel.keys_update {t : Fin maxTerminals} {f : Terminal}
    (hbuf : k'.keyBuffer = k.keyBuffer) (hterm : k'.terminal = update k.terminal t f)
    (hf : f.keyBuffer = (k.terminal t).keyBuffer) : k'.keys = k.keys := by
  rw [keys, keys, hbuf, hterm]
  by_cases ht : k.keyBuffer = t
  · rw [ht, update_self, hf]
  · rw [update_of_ne ht]

theorem Kernel.keys_installed : (k.installed b site p args mem).keys = k.keys :=
  Kernel.keys_update rfl rfl rfl

theorem Kernel.keys_ended : (k.retired.resumed p).keys = k.keys := by
  have hretired : k.retired.keys = k.keys := Kernel.keys_update rfl rfl rfl
  have hresumed : (k.retired.resumed p).keys = k.retired.keys := Kernel.keys_update rfl rfl rfl
  exact hresumed.trans hretired

end Lines

section Room

theorem SameProcesses.canExecute_eq (h : SameProcesses k k') : k'.canExecute = k.canExecute := by
  simp only [Kernel.canExecute, h.numProcesses]

end Room

/-- The running process has room on its kernel stack for its calls, also after it has started `n`
programs. -/
structure RoomFor (b : Build) (s : StackUse) (n : ℕ) (k : Kernel) : Prop where
  fits : (getPcb k.runningPid).toNat + pcbSize + s.most + n * (b.depth .syscall).toNat ≤
    k.esp0.toNat
  own : k.esp0.toNat ≤ (kernelStackTop k.runningPid).toNat

namespace RoomFor

theorem onStack (h : RoomFor b s n k) : OnStack s k :=
  ⟨(Nat.le_add_right _ _).trans h.fits, h.own⟩

theorem congr (h : RoomFor b s n k) (hs : SameProcesses k k') : RoomFor b s n k' := by
  refine ⟨?_, ?_⟩
  · rw [hs.runningPid_eq, hs.esp0]
    exact h.fits
  · rw [hs.runningPid_eq, hs.esp0]
    exact h.own

/-- A program that was started and has ended has used up what the frame of `execute` takes. -/
theorem ended (h : RoomFor b s (n + 1) k) (hrun : k'.runningPid = k.runningPid)
    (hesp : k'.esp0 = k.esp0 - b.depth .syscall) : RoomFor b s n k' := by
  have hfits := h.fits
  have hown := h.own
  rw [Nat.add_mul, Nat.one_mul] at hfits
  have hle : b.depth .syscall ≤ k.esp0 := UInt32.le_iff_toNat_le.mpr (by omega)
  refine ⟨?_, ?_⟩
  · rw [hrun, hesp, UInt32.toNat_sub_of_le _ _ hle]
    omega
  · rw [hrun, hesp, UInt32.toNat_sub_of_le _ _ hle]
    omega

end RoomFor

/-- The shell waits for a line: it runs, with room for `n` programs, nothing has been typed that has
not been read, and the screen is as `out` leaves it. -/
structure AtPrompt (b : Build) (s : StackUse) (start : Kernel) (p n : ℕ) (lines : List (List UInt8))
    (out : List UInt8) (st : Seat) : Prop where
  typed : st.typed = lines
  typable : ∀ line ∈ lines, Typable line
  separated : Separated b st.kernel
  standard : StandardForest st.kernel
  running : st.kernel.runningPid = p
  room : RoomFor b s n st.kernel
  line : FreshLine st.kernel
  startOnScreen : start.console.OnScreen
  slots : st.kernel.canExecute = start.canExecute
  shows : st.kernel.console.page = (start.console.puts out).page

namespace AtPrompt

variable {text : List UInt8}

theorem live (h : AtPrompt b s start p n lines out st) : st.kernel.live p := by
  obtain ⟨held, hf⟩ := h.standard.1
  exact h.running ▸ hf.running_live hf.current

theorem onScreen (h : AtPrompt b s start p n lines out st) : st.kernel.console.OnScreen :=
  h.separated.inText.cursor

theorem currentPid_eq (h : AtPrompt b s start p n lines out st) (c : Syscall) :
    st.kernel.currentPid (s.atPcb c) = p :=
  (h.room.onStack.currentPid_eq h.separated.running_lt (s.atPcb_le c)).trans h.running

theorem shows_puts (h : AtPrompt b s start p n lines out st) (text : List UInt8) :
    (st.kernel.console.puts text).page = (start.console.puts (out ++ text)).page := by
  rw [Console.puts_append]
  exact Console.page_puts (h.startOnScreen.puts out) h.onScreen h.shows text

/-- The system goes on with its processes as they are, the user types what is no longer in `lines`,
and `text` is printed. -/
theorem later {st' : Seat} {lines' : List (List UInt8)} (h : AtPrompt b s start p n lines out st)
    (htyped : st'.typed = lines') (hsub : lines' ⊆ lines) (hsep : Separated b st'.kernel)
    (hstd : StandardForest st'.kernel) (hsame : SameProcesses st.kernel st'.kernel)
    (hline : FreshLine st'.kernel)
    (hconsole : st'.kernel.console = st.kernel.console.puts text) :
    AtPrompt b s start p n lines' (out ++ text) st' where
  typed := htyped
  typable line hmem := h.typable line (hsub hmem)
  separated := hsep
  standard := hstd
  running := hsame.runningPid_eq.trans h.running
  room := h.room.congr hsame
  line := hline
  startOnScreen := h.startOnScreen
  slots := hsame.canExecute_eq.trans h.slots
  shows := hconsole ▸ h.shows_puts text

theorem prints {a : Action} {console : Console} (h : AtPrompt b s start p n lines out st)
    (hl : Loadable b.image shellCommand)
    (hstep : st.kernel.step b a = some { st.kernel with console := console })
    (hquiet : ∀ e, a ≠ .console e) (hconsole : console = st.kernel.console.puts text) :
    AtPrompt b s start p n lines (out ++ text)
      { st with kernel := { st.kernel with console := console } } :=
  h.later h.typed (List.Subset.refl _) (h.separated.step hl (fun e he ↦ (hquiet e he).elim) hstep)
    (h.standard.step hl hstep) (.io console st.kernel.keyboard st.kernel.devices)
    (h.line.congr rfl rfl) hconsole

theorem writes (h : AtPrompt b s start p n lines out st) (hl : Loadable b.image shellCommand)
    (hnul : 0 ∉ bytes) : ∃ st',
      (seatCalls b s behind programs).ece391Write 1 bytes st = (st', (bytes.length : ℤ)) ∧
      AtPrompt b s start p n lines (out ++ bytes) st' := by
  obtain ⟨f, hopen, hstdout⟩ := (h.standard.2 p h.live).stdout
  have hops := (File.entry_eq_some hopen).2.2.2.trans hstdout
  have hwrite : st.kernel.writeFd p (1 : Fin maxFiles).val (some (cstr bytes)) bytes.length =
      ({ st.kernel with console := st.kernel.console.puts bytes }, (bytes.length : ℤ)) := by
    simp only [Kernel.writeFd, Kernel.lookup_open hopen, hops]
    exact terminalWrite_eq hnul _
  have hstep : st.kernel.step b
      (.fdCall (.writeFd (1 : Fin maxFiles).val (some (cstr bytes)) bytes.length)) =
      some { st.kernel with console := st.kernel.console.puts bytes } := by
    simp only [Kernel.step, Kernel.fdCall, h.running, hwrite]
    rfl
  refine ⟨{ st with kernel := { st.kernel with console := st.kernel.console.puts bytes } }, ?_,
    h.prints hl hstep (fun e he ↦ Action.noConfusion he) rfl⟩
  simp only [seatCalls, h.currentPid_eq]
  exact congrArg (fun r : Kernel × ℤ ↦ ({ st with kernel := r.1 }, r.2)) hwrite

theorem reads (h : AtPrompt b s start p n (line :: lines) out st)
    (hl : Loadable b.image shellCommand) :
    ∃ st', (seatCalls b s behind programs).ece391Read 0 (bufSize - 1) st =
        some (st', (line.length : ℤ), line) ∧ Typable line ∧
      AtPrompt b s start p n lines (out ++ (line ++ ['\n'.toUInt8])) st' := by
  have htyp := h.typable line List.mem_cons_self
  obtain ⟨f, hopen, hstdin⟩ := (h.standard.2 p h.live).stdin
  have hops := (File.entry_eq_some hopen).2.2.2.trans hstdin
  obtain ⟨k₁, hr, hlocal, henter, hspells, hconsole⟩ := h.line.keystrokes (b := b) htyp
  have hpcb := hlocal.pcb p (Set.notMem_empty p)
  have hopen₁ : k₁.opened p 0 = some f := by
    rw [Kernel.opened, hpcb]
    exact hopen
  have hops₁ : ((k₁.pcb p).files 0).fileops = .stdin := by rwa [hpcb]
  have hsep₁ : Separated b k₁ :=
    h.separated.runs hl hr fun u e hv ↦ keystrokes_contained hv.mem
  have hpid : k₁.currentPid (s.atPcb .readFd) = p := by
    rw [((h.room.congr hlocal.toSameProcesses).onStack).currentPid_eq hsep₁.running_lt
      (s.atPcb_le _), hlocal.runningPid_eq, h.running]
  obtain ⟨k₂, hread, hkeys, hpos, hwaiting⟩ := Kernel.terminalRead_eq ((bufSize - 1 : ℕ) : ℤ) henter
  rw [KeyBuffer.readLoop_eq hspells, Int.toNat_natCast, List.take_of_length_le] at hread
  · have hwait :
        st.kernel.readFd b p (0 : Fin maxFiles).val true ((bufSize - 1 : ℕ) : ℤ) = none := by
      simp only [Kernel.readFd, Kernel.lookup_open hopen, hops, Bool.true_eq_false, if_false,
        Kernel.terminalRead_waits h.line.enter, Option.map_none]
    have hgets : k₁.readFd b p (0 : Fin maxFiles).val true ((bufSize - 1 : ℕ) : ℤ) =
        some (k₂, (line.length : ℤ), line) := by
      simp only [Kernel.readFd, Kernel.lookup_open hopen₁, hops₁, Bool.true_eq_false, if_false,
        hread, Option.map_some]
    have hstep : k₁.step b (.console (.read ((bufSize - 1 : ℕ) : ℤ))) = some k₂ := by
      simp only [Kernel.step, Kernel.event, hread, Option.map_some]
    have hsame := hlocal.trans (.terminalRead hread)
    have hsep₂ : Separated b k₂ := hsep₁.step hl (fun e he ↦ by cases he; exact .read _) hstep
    refine ⟨⟨k₂, lines⟩, ?_, htyp, h.later rfl (List.subset_cons_self _ _) hsep₂
      (StandardForest.step ?_ hl hstep) hsame.toSameProcesses ⟨hkeys, hpos, hwaiting⟩ ?_⟩
    · have hseat : st.read b s (0 : Fin maxFiles).val (bufSize - 1) =
          some (⟨k₂, lines⟩, (line.length : ℤ), line) := by
        rw [Seat.read, h.currentPid_eq, hwait, h.typed]
        simp only [hr, hpid, hgets, Option.bind_eq_bind, Option.bind_some]
      exact hseat
    · exact invariant (fun _ _ _ hs hk ↦ hs.step hl hk) h.standard hr
    · refine Eq.trans ?_ hconsole
      unfold Kernel.terminalRead at hread
      rw [if_pos henter] at hread
      obtain ⟨rfl, -⟩ := Prod.mk.inj (Option.some.inj hread)
      rfl
  · have hfits := htyp.lt_bufSize
    omega

end AtPrompt

/-- Whatever process it is run as, with nothing open but the standard streams and room on its kernel
stack, a program prints `text` and comes back with `status`. -/
def Performs (b : Build) (s : StackUse) (main : UserMain) (args text : List UInt8) (status : ℤ) :
    Prop :=
  ∀ k behind, Separated b k → StandardForest k → OnStack s k → HoldsArgs k k.runningPid args →
    Fresh (k.opened k.runningPid) → ∃ sh table out,
      Yields (fun fuel ↦ main (sharedCalls b s k.runningPid behind nobody) fuel ⟨k, 0, []⟩)
        (sh, status) ∧
      Shares b s k k.runningPid (k.pcb k.runningPid).args nobody table out sh ∧ out.flatten = text

section Child

variable {command : Command} {main : UserMain} {text args : List UInt8} {status : ℤ} {q : ℕ}
  {mem : Memory} {entry : UInt32} {sh : Sharing} {table : Slots maxFiles OpenFile}
  {outs : List (List UInt8)}

/-- When a program that was started has come to its end, the process that had it executed goes on,
and the console is as the program has left it. -/
structure Back (b : Build) (k : Kernel) (text : List UInt8) (k' : Kernel) : Prop where
  separated : Separated b k'
  standard : StandardForest k'
  running : k'.runningPid = k.runningPid
  esp0 : k'.esp0 = k.esp0 - b.depth .syscall
  keys : k'.keys = k.keys
  keyboard : k'.keyboard = k.keyboard
  slots : k'.canExecute = k.canExecute
  console : ∃ mem, { k.console with mem := mem }.page = k.console.page ∧
    k'.console = { k.console with mem := mem }.puts text

theorem Shares.ends (hf : Forest k held) (hl : Loadable b.image shellCommand)
    (hload : Loadable b.image command) (hexit : Kernel.isExit command = false)
    (hno : k.keyboard.enterPressed = false)
    (hnew : k.getNewPid = some (q, k.processesFlags ||| 1#8 <<< q))
    (hloads : k.Loads b command q mem)
    (hexec : k.execute b (some command) =
      some (k.installed b .syscall q (commandArgs command.text) mem, .started entry))
    (h : Shares b s (k.installed b .syscall q (commandArgs command.text) mem) q args nobody table
      outs sh) (status : UInt8) : ∃ k',
      sh.kernel.haltWith b (sh.kernel.currentPid (s.atPcb .halt)) status =
        some (k', .resumed status) ∧ Back b k outs.flatten k' := by
  obtain ⟨hq, hfree, -⟩ := Kernel.getNewPid_eq_some hnew
  have hquiet := h.ownCalls fun _ _ ↦ rfl
  have hpid : (k.installed b .syscall q (commandArgs command.text) mem).runningPid = q :=
    runningPid_installed
  have hchild := hf.execute_child hl hexit hexec
  rw [hpid] at hchild
  obtain ⟨held', hf'⟩ := h.standard.1
  have hhalt := hf'.halt_nested (b := b)
    ((hchild.congr hquiet.toSameProcesses).nested h.running) status
  have hend := hf'.halt_unwound
  obtain ⟨hkeyboard, hkeys⟩ := hquiet.line hno
  have hhalted : sh.kernel.step b (.halt status) =
      some (sh.kernel.retired.resumed sh.kernel.runningPid) :=
    congrArg (Option.map Prod.fst) hhalt
  have hstd := h.standard.step hl hhalted
  rw [h.currentPid_eq, ← h.running]
  refine ⟨_, hhalt, h.separated.step hl (fun e he ↦ Action.noConfusion he) hhalted, hstd, ?_, ?_,
    ?_, hkeyboard, ?_, mem, hloads.page hq hload, hquiet.console⟩
  · rw [hf'.resumed_runningPid, h.running]
    exact (hquiet.parentPid q).trans hchild.parent
  · have hframe := (hquiet.parentEsp q).trans hchild.frame
    rw [← h.running] at hframe
    exact hframe
  · rw [Kernel.keys_ended, hkeys, Kernel.keys_installed]
  · obtain ⟨held'', hf''⟩ := hstd.1
    refine hf.toStacked.canExecute_congr hf''.toStacked fun r ↦ ?_
    have hlive : (sh.kernel.retired.resumed sh.kernel.runningPid).live r ↔
        sh.kernel.live r ∧ r ≠ q := by
      rw [hend.live, h.running]
      simp
    rw [hlive, hquiet.live_iff, Kernel.live_installed hnew]
    constructor
    · rintro ⟨hold | hnew, hne⟩
      · exact hold
      · exact absurd hnew hne
    · intro hold
      refine ⟨.inl hold, ?_⟩
      rintro rfl
      exact hfree hold

/-- A command that starts a program brings the shell back to its prompt. -/
theorem AtPrompt.starts {lines : List (List UInt8)} {out : List UInt8} {st : Seat}
    (behind : ℕ → UInt8) (h : AtPrompt b s start p (n + 1) lines out st)
    (hl : Loadable b.image shellCommand) (hload : Loadable b.image command)
    (hexit : Kernel.isExit command = false) (hnul : 0 ∉ commandArgs command.text)
    (hroom : st.kernel.canExecute = true)
    (hmain : Performs b s main (commandArgs command.text) text status) : ∃ st' k₁ entry,
      st.kernel.execute b (some command) = some (k₁, .started entry) ∧
      Yields (fun fuel ↦ st.finish b s behind fuel main k₁)
        (st', ((UInt8.ofInt status).toNat : ℤ)) ∧
      AtPrompt b s start p n lines (out ++ text) st' := by
  obtain ⟨held, hf⟩ := h.standard.1
  obtain ⟨k₁, entry, hlaunch⟩ : ∃ k₁ entry,
      st.kernel.launch b .syscall command = some (k₁, .started entry) := by
    obtain ⟨q, hnew⟩ := hf.toStacked.exists_newPid hroom
    obtain ⟨mem, entry, hlaunch⟩ := Kernel.launch_loadable .syscall hload hroom hnew
    exact ⟨_, entry, hlaunch⟩
  rcases Kernel.launch_cases hlaunch with ⟨v, s, ho, -⟩ | ⟨q, mem, e, -, hnew, -, rfl, hloads⟩
  · cases ho
  have hexec : st.kernel.execute b (some command) =
      some (st.kernel.installed b .syscall q (commandArgs command.text) mem, .started entry) :=
    (Kernel.execute_launch hexit).trans hlaunch
  have hstep := Kernel.step_execute hexec
  have hruns := hf.execute_runsWith hl hexit rfl hnul hexec
  have hpid : (st.kernel.installed b .syscall q (commandArgs command.text) mem).runningPid = q :=
    runningPid_installed
  have hfresh : Fresh ((st.kernel.installed b .syscall q (commandArgs command.text) mem).opened
      (st.kernel.installed b .syscall q (commandArgs command.text) mem).runningPid) := by
    rw [hpid]
    exact .installed
  obtain ⟨htop, hlt⟩ := Kernel.execute_top hexit hexec
  have hon : OnStack s (st.kernel.installed b .syscall q (commandArgs command.text) mem) :=
    .of_top htop hlt (h.room.onStack.fits_block h.separated.running_lt)
  obtain ⟨sh, table, outs, hyields, hshares, hout⟩ := hmain _ behind
    (h.separated.step hl (fun e he ↦ Action.noConfusion he) hstep) (h.standard.step hl hstep) hon
    hruns.holds hfresh
  rw [hpid] at hshares
  obtain ⟨k', hhalt, hback⟩ := hshares.ends hf hl hload hexit h.line.enter hnew hloads hexec
    (UInt8.ofInt status)
  rw [hout] at hback
  refine ⟨{ st with kernel := k' }, _, entry, hexec, ?_, ?_⟩
  · refine hyields.bind ?_
    simp only [hhalt]
    exact yields_some
  · obtain ⟨mem', hpage, hconsole⟩ := hback.console
    have hon : { st.kernel.console with mem := mem' }.OnScreen := onScreen_setMem h.onScreen mem'
    refine ⟨h.typed, h.typable, hback.separated, hback.standard, hback.running.trans h.running,
      h.room.ended hback.running hback.esp0, h.line.congr hback.keys hback.keyboard,
      h.startOnScreen, hback.slots.trans h.slots, ?_⟩
    rw [← h.shows_puts text, ← Console.page_puts h.onScreen hon hpage text]
    exact congrArg Console.page hconsole

end Child

section Session

variable {command : Command} {text printed : List UInt8} {rval v : ℤ}
  {rounds : List Round} {later : List (List UInt8)} {buf : CharArray}

end Session

section Commands

variable {args text : List UInt8} {status : ℤ} {dentry : Dentry}

end Commands

section Sample

end Sample

end ApollOS
