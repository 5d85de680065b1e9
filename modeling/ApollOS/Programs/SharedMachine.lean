import ApollOS.Console.KeyBuffer
import ApollOS.Files.DirectoryListing
import ApollOS.Process.Arguments
import ApollOS.Process.MemoryIsolation
import ApollOS.Programs.Copying
import ApollOS.Programs.GrepSession

namespace ApollOS

open Function Fuel Runs Reader SlotTable

/-- What the user can do while a program runs. -/
def ByUser : Occurrence → Bool
  | .happens (.enters (.console (.key _))) => true
  | .happens (.enters (.console (.switch _))) => true
  | _ => false

/-- What happens between two calls of process `p`: nothing is stored where it should not be, and
the kernel stacks hold out; while `p` is in control only the user does something, and in the end it
is in control. -/
def Kernel.meanwhile (b : Build) (s : StackUse) (p : ℕ) : List Occurrence → Kernel → Option Kernel
  | [], k => if k.runningPid = p ∧ OnStack s k then some k else none
  | x :: xs, k =>
    if (k.runningPid = p → ByUser x = true) ∧ OnStack s k ∧ Proper b k x then
      (k.occurOnStack b s x).bind (Kernel.meanwhile b s p xs)
    else none

/-- The machine, the number of calls that a process has made, and what it has written. -/
structure Sharing where
  kernel : Kernel
  calls : ℕ
  written : List (List UInt8)

/-- What others do before a call of process `p`; nothing, if it cannot happen. -/
def Sharing.interlude (b : Build) (s : StackUse) (p : ℕ)
    (others : ℕ → Kernel → List Occurrence) (st : Sharing) : Sharing :=
  { st with
    kernel := (st.kernel.meanwhile b s p (others st.calls st.kernel)).getD st.kernel
    calls := st.calls + 1 }

/-- The system calls of process `p` on a machine that it shares with others, each for the PCB that
it finds. Of what is written, that counts which the kernel says it has taken. -/
def sharedCalls (b : Build) (s : StackUse) (p : ℕ) (behind : ℕ → UInt8)
    (others : ℕ → Kernel → List Occurrence) : LibraryCalls Sharing where
  ece391Open filename st :=
    let st := st.interlude b s p others
    let (k, r) := st.kernel.openFd b (st.kernel.currentPid (s.atPcb .openFd)) (some filename)
    ({ st with kernel := k }, r)
  ece391Read fd n st :=
    let st := st.interlude b s p others
    (st.kernel.readFd b (st.kernel.currentPid (s.atPcb .readFd)) fd true n).map
      fun (k, r, bytes) ↦ ({ st with kernel := k }, r, bytes)
  ece391Write fd bytes st :=
    let st := st.interlude b s p others
    let (k, r) := st.kernel.writeFd (st.kernel.currentPid (s.atPcb .writeFd)) fd
      (some (cstr bytes)) bytes.length
    ({ st with kernel := k, written := st.written ++ [bytes.take r.toNat] }, r)
  ece391Close fd st :=
    let st := st.interlude b s p others
    let (k, r) := st.kernel.closeFd (st.kernel.currentPid (s.atPcb .closeFd)) fd
    ({ st with kernel := k }, r)
  ece391Getargs n st :=
    let st := st.interlude b s p others
    (st, st.kernel.getargs (st.kernel.currentPid (s.atPcb .getargs)) behind true n)

variable {b : Build} {s : StackUse} {start k k' : Kernel} {p : ℕ}
  {table table' : Slots maxFiles OpenFile} {args bytes name new : List UInt8}
  {out out' : List (List UInt8)} {others : ℕ → Kernel → List Occurrence} {screen : Console}
  {st : Sharing} {xs : List Occurrence} {x : Occurrence} {call : FdCall} {r : ℤ}
  {i : Fin maxFiles} {dentry : Dentry} {ops : FileOps} {filename : Option (ℕ → UInt8)}
  {behind : ℕ → UInt8}

/-- Process `p` has come from `start` to `k` by calls of its own, which have printed `text`; a line
that has not been completed is left as it is. -/
structure OwnCalls (p : ℕ) (start : Kernel) (text : List UInt8) (k : Kernel) : Prop extends
    Local {p} start k where
  console : k.console = start.console.puts text
  line : start.keyboard.enterPressed = false → k.keyboard = start.keyboard ∧ k.keys = start.keys

/-- What process `p` finds again after others have had their turn: all is in order on the machine,
and its PCB is as it was in `start`. -/
structure Kept (b : Build) (p : ℕ) (start k : Kernel) : Prop where
  separated : Separated b k
  standard : StandardForest k
  live : k.live p
  pcb : k.pcb p = start.pcb p

/-- Process `p` has come from `start` to `st`, with `table` open and `out` written, and has room on
its stack for its next call. -/
structure Shares (b : Build) (s : StackUse) (start : Kernel) (p : ℕ) (args : List UInt8)
    (others : ℕ → Kernel → List Occurrence) (table : Slots maxFiles OpenFile)
    (out : List (List UInt8)) (st : Sharing) : Prop where
  separated : Separated b st.kernel
  standard : StandardForest st.kernel
  running : st.kernel.runningPid = p
  room : OnStack s st.kernel
  opened : st.kernel.opened p = table
  args : (st.kernel.pcb p).args = args
  written : st.written = out
  ownCalls : (∀ n k, others n k = []) → OwnCalls p start out.flatten st.kernel

section OwnCalls

theorem FdEffect.keyboard_eq (h : FdEffect p k k') (hno : k.keyboard.enterPressed = false) :
    k'.keyboard = k.keyboard ∧ k'.keys = k.keys := by
  cases h with
  | io => exact ⟨rfl, rfl⟩
  | file => exact ⟨rfl, rfl⟩
  | line hread =>
    rw [Kernel.terminalRead_waits hno] at hread
    cases hread

theorem OwnCalls.refl (k : Kernel) : OwnCalls p k [] k where
  __ := Local.refl k
  console := rfl
  line _ := ⟨rfl, rfl⟩

theorem OwnCalls.called {text : List UInt8} (h : OwnCalls p start text k)
    (hcall : k.fdCall b p call = some (k', r, bytes)) (hconsole : k'.console = k.console.puts new) :
    OwnCalls p start (text ++ new) k' where
  __ := h.toLocal.trans (.fdCall rfl hcall)
  console := by
    rw [hconsole, h.console, Console.puts, Console.puts, Console.puts, List.foldl_append]
  line hno := by
    obtain ⟨hkeyboard, hkeys⟩ := h.line hno
    obtain ⟨hkeyboard', hkeys'⟩ := (FdEffect.fdCall hcall).keyboard_eq (hkeyboard ▸ hno)
    exact ⟨hkeyboard'.trans hkeyboard, hkeys'.trans hkeys⟩

end OwnCalls

section Meanwhile

theorem not_acts_of_byUser (h : k.runningPid = p → ByUser x = true) : ¬ Acts p k x := by
  rintro ⟨hrun, huses⟩
  have hyes := h hrun
  cases huses with
  | leaves hleaves =>
    cases hleaves with
    | halt => cases hyes
    | exit => cases hyes
  | _ => cases hyes

theorem Kept.occur (h : Kept b p start k) (hl : Loadable b.image shellCommand)
    (huser : k.runningPid = p → ByUser x = true) (hon : OnStack s k) (hx : Proper b k x)
    (hk : k.occurOnStack b s x = some k') : Kept b p start k' := by
  rw [hon.occurOnStack_eq h.separated.running_lt] at hk
  obtain ⟨hlive, hpcb⟩ := h.separated.process hl h.live (not_acts_of_byUser huser) hk
  exact ⟨(h.separated.occur hl hx hk).1, h.standard.occur hl hk, hlive, hpcb.trans h.pcb⟩

theorem Kept.meanwhile (h : Kept b p start k) (hl : Loadable b.image shellCommand)
    (hm : k.meanwhile b s p xs = some k') :
    Kept b p start k' ∧ k'.runningPid = p ∧ OnStack s k' := by
  induction xs generalizing k with
  | nil =>
    rw [Kernel.meanwhile] at hm
    split_ifs at hm with hend
    obtain rfl := Option.some.inj hm
    exact ⟨h, hend⟩
  | cons x xs ih =>
    rw [Kernel.meanwhile] at hm
    split_ifs at hm with hstep
    obtain ⟨huser, hon, hx⟩ := hstep
    obtain ⟨k₁, hk, hm⟩ := Option.bind_eq_some_iff.mp hm
    exact ih (h.occur hl huser hon hx hk) hm

end Meanwhile

namespace Shares

theorem started (hsep : Separated b k) (hstd : StandardForest k) (hon : OnStack s k)
    (hrun : k.runningPid = p) :
    Shares b s k p (k.pcb p).args others (k.opened p) [] ⟨k, 0, []⟩ where
  separated := hsep
  standard := hstd
  running := hrun
  room := hon
  opened := rfl
  args := rfl
  written := rfl
  ownCalls _ := .refl k

theorem live (h : Shares b s start p args others table out st) : st.kernel.live p := by
  obtain ⟨held, hf⟩ := h.standard.1
  exact h.running ▸ hf.running_live hf.current

theorem currentPid_eq (h : Shares b s start p args others table out st) (c : Syscall) :
    st.kernel.currentPid (s.atPcb c) = p :=
  (h.room.currentPid_eq h.separated.running_lt (s.atPcb_le c)).trans h.running

theorem interlude (h : Shares b s start p args others table out st)
    (hl : Loadable b.image shellCommand) :
    Shares b s start p args others table out (st.interlude b s p others) := by
  cases hm : st.kernel.meanwhile b s p (others st.calls st.kernel) with
  | none =>
    have hsame : (st.interlude b s p others).kernel = st.kernel := by
      rw [Sharing.interlude, hm]
      rfl
    refine ⟨?_, ?_, ?_, ?_, ?_, ?_, h.written, ?_⟩
    all_goals rw [hsame]
    · exact h.separated
    · exact h.standard
    · exact h.running
    · exact h.room
    · exact h.opened
    · exact h.args
    · exact h.ownCalls
  | some k =>
    have hafter : (st.interlude b s p others).kernel = k := by
      rw [Sharing.interlude, hm]
      rfl
    have hkept : Kept b p st.kernel st.kernel := ⟨h.separated, h.standard, h.live, rfl⟩
    obtain ⟨hkept, hrun, hon⟩ := hkept.meanwhile hl hm
    refine ⟨?_, ?_, ?_, ?_, ?_, ?_, h.written, fun hquiet ↦ ?_⟩
    all_goals rw [hafter]
    · exact hkept.separated
    · exact hkept.standard
    · exact hrun
    · exact hon
    · exact (congrArg (fun pcb i ↦ (pcb.files i).entry) hkept.pcb).trans h.opened
    · rw [hkept.pcb]
      exact h.args
    · rw [hquiet, Kernel.meanwhile, if_pos ⟨h.running, h.room⟩] at hm
      rw [← Option.some.inj hm]
      exact h.ownCalls hquiet

theorem called {st' : Sharing} (h : Shares b s start p args others table out st)
    (hl : Loadable b.image shellCommand)
    (hcall : st.kernel.fdCall b p call = some (st'.kernel, r, bytes))
    (hopened : st'.kernel.opened p = table')
    (hconsole : st'.kernel.console = st.kernel.console.puts new)
    (hout : out'.flatten = out.flatten ++ new) (hwritten : st'.written = out') :
    Shares b s start p args others table' out' st' := by
  have hk : st.kernel.step b (.fdCall call) = some st'.kernel := by
    rw [Kernel.step, h.running, hcall]
    rfl
  have hlocal := Local.fdCall (S := {p}) rfl hcall
  obtain ⟨files, hpcb⟩ := (FdEffect.fdCall hcall).pcb p
  refine ⟨h.separated.step hl (fun e he ↦ Action.noConfusion he) hk, h.standard.step hl hk,
    hlocal.runningPid_eq.trans h.running, h.room.congr hlocal.toSameProcesses, hopened, ?_,
    hwritten, fun hquiet ↦ hout ▸ (h.ownCalls hquiet).called hcall hconsole⟩
  rw [hpcb]
  exact h.args

theorem called_silently {st' : Sharing} (h : Shares b s start p args others table out st)
    (hl : Loadable b.image shellCommand)
    (hcall : st.kernel.fdCall b p call = some (st'.kernel, r, bytes))
    (hopened : st'.kernel.opened p = table')
    (hconsole : st'.kernel.console = st.kernel.console) (hwritten : st'.written = out) :
    Shares b s start p args others table' out st' :=
  have hnothing : st'.kernel.console = st.kernel.console.puts [] := hconsole
  h.called hl hcall hopened hnothing (List.append_nil _).symm hwritten

variable (behind)

section Calls

variable (h : Shares b s start p args others table out st) (hl : Loadable b.image shellCommand)

include h hl

theorem ece391Read_eq (fd : ℤ) (n : ℕ) :
    (sharedCalls b s p behind others).ece391Read fd n st =
      ((st.interlude b s p others).kernel.readFd b p fd true n).map fun (k, r, bytes) ↦
        ({ st.interlude b s p others with kernel := k }, r, bytes) := by
  simp only [sharedCalls, (h.interlude hl).currentPid_eq]

theorem ece391Write_eq (fd : ℤ) (bytes : List UInt8) :
    (sharedCalls b s p behind others).ece391Write fd bytes st =
      ({ st.interlude b s p others with
        kernel := ((st.interlude b s p others).kernel.writeFd p fd (some (cstr bytes))
          bytes.length).1
        written := st.written ++ [bytes.take ((st.interlude b s p others).kernel.writeFd p fd
          (some (cstr bytes)) bytes.length).2.toNat] },
        ((st.interlude b s p others).kernel.writeFd p fd (some (cstr bytes)) bytes.length).2) := by
  simp only [sharedCalls, (h.interlude hl).currentPid_eq]
  rfl

theorem ece391Close_eq (fd : ℤ) :
    (sharedCalls b s p behind others).ece391Close fd st =
      ({ st.interlude b s p others with
        kernel := ((st.interlude b s p others).kernel.closeFd p fd).1 },
        ((st.interlude b s p others).kernel.closeFd p fd).2) := by
  simp only [sharedCalls, (h.interlude hl).currentPid_eq]

end Calls

theorem writes {e : OpenFile} (h : Shares b s start p args others table out st)
    (hl : Loadable b.image shellCommand) (hstdout : table 1 = some e) (he : e.fileops = .stdout)
    (hnul : 0 ∉ bytes) : ∃ st',
      (sharedCalls b s p behind others).ece391Write 1 bytes st = (st', (bytes.length : ℤ)) ∧
      Shares b s start p args others table (out ++ [bytes]) st' := by
  have h' := h.interlude hl
  have hopen : (st.interlude b s p others).kernel.opened p 1 = some e := h'.opened ▸ hstdout
  have hwrite : (st.interlude b s p others).kernel.writeFd p (1 : Fin maxFiles).val
      (some (cstr bytes)) bytes.length =
      ({ (st.interlude b s p others).kernel with
        console := (st.interlude b s p others).kernel.console.puts bytes },
        (bytes.length : ℤ)) := by
    have hops := (File.entry_eq_some hopen).2.2.2.trans he
    simp only [Kernel.writeFd, Kernel.lookup_open hopen, hops]
    exact terminalWrite_eq hnul _
  refine ⟨{ st.interlude b s p others with
    kernel := { (st.interlude b s p others).kernel with
      console := (st.interlude b s p others).kernel.console.puts bytes }
    written := st.written ++ [bytes] }, ?_, ?_⟩
  · have hcalls := h.ece391Write_eq behind hl (1 : Fin maxFiles).val bytes
    rw [hwrite, Int.toNat_natCast, List.take_length] at hcalls
    exact hcalls
  · have hcall : (st.interlude b s p others).kernel.fdCall b p
        (.writeFd (1 : Fin maxFiles).val (some (cstr bytes)) bytes.length) =
        some ({ (st.interlude b s p others).kernel with
          console := (st.interlude b s p others).kernel.console.puts bytes },
          (bytes.length : ℤ), []) := by
      rw [Kernel.fdCall, hwrite]
    refine h'.called hl hcall h'.opened rfl ?_ ?_
    · rw [List.flatten_append, List.flatten_singleton]
    · rw [h.written]

theorem reads {n : ℕ} {value : ℤ} {f : OpenFile} (k' : Kernel)
    (h : Shares b s start p args others table out st)
    (hl : Loadable b.image shellCommand)
    (hcall : (st.interlude b s p others).kernel.readFd b p i.val true n = some (k', value, bytes))
    (hopened : k'.opened p = update table i (some f))
    (hconsole : k'.console = (st.interlude b s p others).kernel.console) : ∃ st',
      (sharedCalls b s p behind others).ece391Read i.val n st = some (st', value, bytes) ∧
      Shares b s start p args others (update table i (some f)) out st' := by
  have h' := h.interlude hl
  refine ⟨{ st.interlude b s p others with kernel := k' }, ?_, ?_⟩
  · rw [h.ece391Read_eq behind hl, hcall]
    rfl
  · have hcall' : (st.interlude b s p others).kernel.fdCall b p (.readFd i.val true n) =
      some (k', value, bytes) := hcall
    exact h'.called_silently hl hcall' hopened hconsole h'.written

theorem reads_file {inode pos : UInt32} {total n : ℕ}
    (h : Shares b s start p args others table out st) (hl : Loadable b.image shellCommand)
    (hw : b.image.WellFormed) (hinode : inode < b.image.numInodes) (hn : n ≤ bufSize)
    (hopen : table i = some ⟨inode, pos, .file⟩)
    (hpos : pos.toNat = position (shownContent b.image inode) total) : ∃ st' pos',
      (sharedCalls b s p behind others).ece391Read i.val n st =
        some (st', ((chunk (shownContent b.image inode) total n).length : ℤ),
          chunk (shownContent b.image inode) total n) ∧
      pos'.toNat = position (shownContent b.image inode) (total + n) ∧
      Shares b s start p args others (update table i (some ⟨inode, pos', .file⟩)) out st' := by
  have h' := h.interlude hl
  have hbound : (n : ℤ) < 2 ^ 31 :=
    lt_of_le_of_lt (Int.ofNat_le.mpr hn) (show (bufSize : ℤ) < 2 ^ 31 by decide)
  have hreading : Reading b p i inode total (st.interlude b s p others).kernel :=
    ⟨h'.standard.1, h'.live, pos, h'.opened ▸ hopen, hpos⟩
  obtain ⟨k', bytes, hcall, rfl, hafter⟩ :=
    hreading.readFd hw hinode (Int.natCast_nonneg n) hbound
  rw [Int.toNat_natCast] at hcall hafter
  obtain ⟨pos', hopen', hpos'⟩ := hafter.opened
  obtain ⟨hconsole, hothers⟩ := readFd_file (h'.opened ▸ hopen) hcall
  have htable : k'.opened p = update table i (some ⟨inode, pos', .file⟩) := by
    funext j
    by_cases hj : j = i
    · subst hj
      rw [hopen', update_self]
    · rw [hothers j hj, h'.opened, update_of_ne hj]
  obtain ⟨st', hread, hshares⟩ := h.reads behind k' hl hcall htable hconsole
  exact ⟨st', pos', hread, hpos', hshares⟩

end Shares

end ApollOS
