import ApollOS.Console.SaveRestore
import ApollOS.Process.VideoMapping

namespace ApollOS

open Function Runs Console

variable {b : Build} {m : Machine} {k k' k₀ u v : Kernel} {held : Fin maxTerminals → List ℕ}
  {pg : Paging} {a : Action} {d : Prop} {p q : ℕ} {S : Set ℕ} {mem mem' : Memory} {x : ℤ}

/-- The pages that no process has for itself: the video page and those in which the
terminals' screens are kept. -/
def sharedPages : Set ℤ :=
  Set.Ico video (video + fourKb) ∪ ⋃ t : Fin maxTerminals,
    Set.Ico (termPage t : ℤ) (termPage t + fourKb)

def ownPage (p : ℕ) : Set ℤ := Set.Ico (userBlock p : ℤ) (userBlock p + fourMb)

theorem textMemory_subset : textMemory ⊆ sharedPages := by
  intro x hx
  obtain ⟨hle, hlt⟩ := hx
  refine .inl ⟨hle, ?_⟩
  simp only [numRows, numCols] at hlt
  simp only [fourKb]
  omega

theorem mem_sharedPages_of_terminal {t : Fin maxTerminals} (hle : (termPage t : ℤ) ≤ x)
    (hlt : x < termPage t + fourKb) : x ∈ sharedPages :=
  .inr (Set.mem_iUnion.mpr ⟨t, hle, hlt⟩)

section Stores

/-- All of the buffer is memory that user mode can use. -/
def UserBuffer (b : Build) (pg : Paging) (addr n : ℕ) : Prop :=
  ∀ i < n, ∃ x, walk b pg (addr + i) = some ⟨x, true⟩

instance (b : Build) (pg : Paging) (addr n : ℕ) : Decidable (UserBuffer b pg addr n) :=
  decidable_of_iff (∀ i < n, ((walk b pg (addr + i)).map Translation.user) = some true) <|
    forall₂_congr fun i _ ↦ by
      rw [Option.map_eq_some_iff]
      exact ⟨fun ⟨⟨x, _⟩, hx, hu⟩ ↦ ⟨x, hu ▸ hx⟩, fun ⟨x, hx⟩ ↦ ⟨_, hx, rfl⟩⟩

theorem UserAddress.shared_or_own {addr y : ℕ} (h : UserAddress p d addr y) :
    (y : ℤ) ∈ sharedPages ∨ (y : ℤ) ∈ ownPage p := by
  cases h with
  | own hstart hend =>
    right
    simp only [ownPage, Set.mem_Ico, virtualStart, virtualEnd, fourMb] at *
    omega
  | @terminal t j hj =>
    exact .inl (mem_sharedPages_of_terminal (t := t) (by omega) (by omega))
  | @video base j hd hbase hj =>
    refine .inl (.inl ⟨?_, ?_⟩)
    · simp only [ApollOS.video, vidMemLoc, fourKb]
      omega
    · simp only [ApollOS.video, vidMemLoc, fourKb] at *
      omega
  | @again t j hd hj =>
    exact .inl (mem_sharedPages_of_terminal (t := t) (by omega) (by omega))

namespace Accounted

/-- From the start of the program's page to the end of the table behind it all that is
mapped is mapped for user mode. -/
theorem walk_user (h : Accounted b pg p d) (hp : p < maxProcesses) {addr : ℕ} {t : Translation}
    (hstart : virtualStart ≤ addr) (hend : addr < virtualEnd + fourMb)
    (ht : walk b pg addr = some t) : t.user = true := by
  rcases Nat.lt_or_ge addr virtualEnd with hown | hbehind
  · rw [h.walk_program hp hstart hown] at ht
    obtain rfl := Option.some.inj ht
    rfl
  · have hdiv : addr / fourMb = virtualEnd / fourMb := by
      simp only [virtualEnd, fourMb] at *
      omega
    by_cases hd : d
    · have hdir : pg.pageDir (addr / fourMb) = b.userTableAddr.toUInt32 ||| rwpFlags := by
        rw [hdiv, (h.video hd).1]
      generalize hn : addr / fourKb % 1024 = n at *
      rcases Nat.lt_or_ge maxTerminals n with hbig | hsmall
      · rw [walk_userTable_none hdir (by rw [hn, h.unused n hbig])] at ht
        cases ht
      cases n with
      | zero =>
        rw [walk_userTable_page hdir (by rw [hn, (h.video hd).2]) (by decide) (by decide)] at ht
        obtain rfl := Option.some.inj ht
        rfl
      | succ n =>
        rw [walk_userTable_page hdir (by rw [hn, h.pages ⟨n, hsmall⟩]) (termPage_lt _)
          (termPage_aligned _)] at ht
        obtain rfl := Option.some.inj ht
        rfl
    · rw [walk_absent (by rw [hdiv, (h.noVideo hd).1])] at ht
      cases ht

theorem store_frame (h : Accounted b pg p d) (hp : p < maxProcesses) {xs : List UInt8} {addr : ℕ}
    (hstore : storeBytes b pg xs addr mem = some mem')
    (huser : ∀ i < xs.length, ∀ t, walk b pg (addr + i) = some t → t.user = true)
    (hx : x ∉ sharedPages) (hx' : x ∉ ownPage p) : mem' x = mem x := by
  refine storeBytes_frame hstore fun i hi t ht he ↦ ?_
  have hw : walk b pg (addr + i) = some ⟨t.addr, true⟩ := by
    rw [ht, ← huser i hi t ht]
  subst he
  exact (h.userAddress_of_walk hp hw).shared_or_own.elim hx hx'

theorem load_frame (h : Accounted b pg q d) (hp : p < maxProcesses) {xs : List UInt8}
    (hlen : xs.length ≤ fourMb)
    (hstore : storeBytes b (pg.remap virtualStart (userBlock p)) xs executeStart mem = some mem')
    (hx : x ∉ sharedPages) (hx' : x ∉ ownPage p) : mem' x = mem x := by
  refine h.remap.store_frame hp hstore (fun i hi t ht ↦ ?_) hx hx'
  refine h.remap.walk_user hp ?_ ?_ ht
  · simp only [virtualStart, executeStart]
    omega
  · simp only [virtualEnd, executeStart, fourMb] at *
    omega

end Accounted

end Stores

/-- Outside the pages that are shared and those of the processes of `S` nothing is
stored. -/
def StoresIn (S : Set ℕ) (mem mem' : Memory) : Prop :=
  ∀ x ∉ sharedPages, (∀ p ∈ S, x ∉ ownPage p) → mem' x = mem x

theorem StoresIn.mono {S T : Set ℕ} (h : StoresIn S mem mem') (hS : S ⊆ T) :
    StoresIn T mem mem' :=
  fun x hx hx' ↦ h x hx fun p hp ↦ hx' p (hS hp)

structure Confined (S : Set ℕ) (k k' : Kernel) : Prop where
  inText : InText k'.console
  saved : SavedOnScreen k'
  stores : StoresIn S k.console.mem k'.console.mem

structure Writes (S : Set ℕ) (k k' : Kernel) : Prop where
  console : ∃ s mem, k'.console = { k.console.puts s with mem := mem } ∧
    StoresIn S (k.console.puts s).mem mem
  place : ∀ t, (k'.terminal t).posX = (k.terminal t).posX ∧
    (k'.terminal t).posY = (k.terminal t).posY

namespace Writes

theorem text (s : List UInt8) (hconsole : k'.console = k.console.puts s)
    (hplace : ∀ t, (k'.terminal t).posX = (k.terminal t).posX ∧
      (k'.terminal t).posY = (k.terminal t).posY) : Writes S k k' :=
  ⟨⟨s, (k.console.puts s).mem, hconsole, fun _ _ _ ↦ rfl⟩, hplace⟩

theorem confined (h : Writes S k k') (ht : InText k.console) (hs : SavedOnScreen k) :
    Confined S k k' := by
  obtain ⟨s, mem, hconsole, hframe⟩ := h.console
  refine ⟨?_, fun t ↦ ?_, fun x hx hx' ↦ ?_⟩
  · rw [hconsole]
    exact (ht.puts s).setMem mem
  · obtain ⟨hposX, hposY⟩ := h.place t
    rw [Terminal.OnScreen, hposX, hposY]
    exact hs t
  · rw [hconsole]
    refine (hframe x hx hx').trans ?_
    exact (puts_writesIn ht.cursor s).frame x fun hin ↦ hx (textMemory_subset hin)

end Writes

section Calls

variable {r : ℤ × List UInt8}

theorem console_readFd {fd nbytes : ℤ} {buf : Bool}
    (h : k.readFd b p fd buf nbytes = some (k', r)) : k'.console = k.console := by
  cases buf with
  | false =>
    obtain ⟨rfl, -⟩ := Prod.mk.inj (Option.some.inj h)
    rfl
  | true =>
    simp only [Kernel.readFd, Bool.true_eq_false, if_false] at h
    split at h
    · obtain ⟨rfl, -⟩ := Prod.mk.inj (Option.some.inj h)
      rfl
    · split at h
      · obtain ⟨⟨k₁, bytes⟩, hread, he⟩ := Option.map_eq_some_iff.mp h
        obtain ⟨rfl, -⟩ := Prod.mk.inj he
        unfold Kernel.terminalRead at hread
        split_ifs at hread
        obtain ⟨rfl, -⟩ := Prod.mk.inj (Option.some.inj hread)
        rfl
      · split_ifs at h
        obtain ⟨rfl, -⟩ := Prod.mk.inj (Option.some.inj h)
        rfl
      all_goals
        obtain ⟨rfl, -⟩ := Prod.mk.inj (Option.some.inj h)
        rfl

theorem console_writeFd (fd : ℤ) (buf : Option (ℕ → UInt8)) (nbytes : ℤ) :
    ∃ s, (k.writeFd p fd buf nbytes).1.console = k.console.puts s := by
  unfold Kernel.writeFd
  split
  · exact ⟨[], rfl⟩
  · split
    · exact ⟨[], rfl⟩
    · split
      · exact ⟨_, rfl⟩
      all_goals exact ⟨[], rfl⟩

theorem console_openFd (filename : Option (ℕ → UInt8)) :
    (k.openFd b p filename).1.console = k.console := by
  unfold Kernel.openFd
  split
  · rfl
  · split
    · rfl
    · split
      · rfl
      · dsimp only
        split
        · rfl
        · split_ifs <;> rfl

theorem console_closeFd (fd : ℤ) : (k.closeFd p fd).1.console = k.console := by
  unfold Kernel.closeFd
  split
  · rfl
  · dsimp only
    split_ifs <;> rfl

theorem console_fdCall {call : FdCall} (h : k.fdCall b p call = some (k', r)) :
    ∃ s, k'.console = k.console.puts s := by
  cases call with
  | openFd filename =>
    obtain ⟨rfl, -⟩ := Prod.mk.inj (Option.some.inj h)
    exact ⟨[], console_openFd filename⟩
  | closeFd fd =>
    obtain ⟨rfl, -⟩ := Prod.mk.inj (Option.some.inj h)
    exact ⟨[], console_closeFd fd⟩
  | readFd fd buf nbytes => exact ⟨[], console_readFd h⟩
  | writeFd fd buf nbytes =>
    obtain ⟨rfl, -⟩ := Prod.mk.inj (Option.some.inj h)
    exact console_writeFd fd buf nbytes

theorem Local.place {S : Set ℕ} (h : Local S k k') (t : Fin maxTerminals) :
    (k'.terminal t).posX = (k.terminal t).posX ∧ (k'.terminal t).posY = (k.terminal t).posY := by
  obtain ⟨buf, hterm, -⟩ := h.terminal t
  rw [hterm]
  exact ⟨rfl, rfl⟩

theorem Writes.fdCall {call : FdCall} (h : k.fdCall b p call = some (k', r)) : Writes S k k' := by
  obtain ⟨s, hs⟩ := console_fdCall h
  exact .text s hs (Local.fdCall (Set.mem_singleton p) h).place

end Calls

section Processes

variable {site : CallSite} {command : Command} {o : Outcome} {status : UInt8}

theorem Writes.launch (h : Accounted b k.paging q d)
    (hS : ¬ k.live k'.runningPid → k'.runningPid ∈ S)
    (hk : k.launch b site command = some (k', o)) : Writes S k k' := by
  rcases Kernel.launch_cases hk with ⟨r, s, -, rfl⟩ | ⟨p, mem, entry, -, hnew, -, rfl, hloads⟩
  · exact .text s rfl fun _ ↦ ⟨rfl, rfl⟩
  · obtain ⟨dentry, -, hstore⟩ := hloads
    obtain ⟨hp, hfresh, -⟩ := Kernel.getNewPid_eq_some hnew
    rw [runningPid_installed] at hS
    refine ⟨⟨[], mem, rfl, fun x hx hx' ↦ ?_⟩, fun t ↦ ?_⟩
    · exact h.load_frame hp length_readData_le hstore hx (hx' p (hS hfresh))
    · have hsame : SameLines k (k.installed b site p (commandArgs command.text) mem) := .installed
      exact ⟨congrArg Saved.posX (hsame.saved t), congrArg Saved.posY (hsame.saved t)⟩

theorem retired_place (t : Fin maxTerminals) : (k.retired.terminal t).posX = (k.terminal t).posX ∧
    (k.retired.terminal t).posY = (k.terminal t).posY := by
  by_cases ht : t = k.termCur
  · subst ht
    simp [Kernel.retired, Kernel.current]
  · rw [Kernel.retired_terminal_of_ne k ht]
    exact ⟨rfl, rfl⟩

theorem Writes.of_retired (h : Writes S k.retired k') : Writes S k k' := by
  refine ⟨h.console, fun t ↦ ?_⟩
  obtain ⟨hposX, hposY⟩ := h.place t
  obtain ⟨hposX', hposY'⟩ := retired_place (k := k) t
  exact ⟨hposX.trans hposX', hposY.trans hposY'⟩

theorem resumed_place (t : Fin maxTerminals) :
    ((k.resumed p).terminal t).posX = (k.terminal t).posX ∧
      ((k.resumed p).terminal t).posY = (k.terminal t).posY := by
  by_cases ht : t = k.termCur
  · subst ht
    rw [Kernel.resumed_terminal_current]
    exact ⟨rfl, rfl⟩
  · rw [Kernel.resumed_terminal_of_ne k p ht]
    exact ⟨rfl, rfl⟩

theorem Writes.halt (hf : Forest k held) (hl : Loadable b.image shellCommand)
    (h : Accounted b k.paging k.runningPid d)
    (hS : k'.runningPid = k.runningPid ∨ ¬ k.live k'.runningPid → k'.runningPid ∈ S)
    (hk : k.halt b status = some (k', o)) : Writes S k k' := by
  by_cases hone : k.current.numProcesses = 1
  · obtain ⟨p, mem, entry, -, hlaunch⟩ := hf.retired_launch hl hone
    rw [Kernel.halt_last hone hlaunch] at hk
    obtain ⟨rfl, -⟩ := Prod.mk.inj (Option.some.inj hk)
    have hacc : Accounted b k.retired.paging k.runningPid d := h
    refine (Writes.launch hacc (fun hfresh ↦ hS ?_) hlaunch).of_retired
    rw [hf.live_retired hf.current, not_and_or, not_not] at hfresh
    exact hfresh.symm
  · rw [hf.halt_nested hone] at hk
    obtain ⟨rfl, -⟩ := Prod.mk.inj (Option.some.inj hk)
    exact Writes.of_retired (.text [] rfl resumed_place)

theorem Writes.execute (hf : Forest k held) (hl : Loadable b.image shellCommand)
    (h : Accounted b k.paging k.runningPid d) {c : Option Command}
    (hS : (k'.runningPid = k.runningPid ∧ Leaves (.execute c)) ∨ ¬ k.live k'.runningPid →
      k'.runningPid ∈ S)
    (hk : k.execute b c = some (k', o)) : Writes S k k' := by
  cases c with
  | none =>
    obtain ⟨rfl, -⟩ := Prod.mk.inj (Option.some.inj hk)
    exact .text [] rfl fun _ ↦ ⟨rfl, rfl⟩
  | some c =>
    cases hexit : Kernel.isExit c with
    | true =>
      rw [hf.execute_exit hl hexit] at hk
      refine .halt hf hl h (fun hnew ↦ hS ?_) hk
      exact hnew.imp_left fun hsame ↦ ⟨hsame, .exit hexit⟩
    | false =>
      rw [Kernel.execute_launch hexit] at hk
      exact .launch h (fun hfresh ↦ hS (.inr hfresh)) hk

theorem Writes.vidmap (h : Accounted b k.paging k.runningPid d) (hp : k.runningPid < maxProcesses)
    {ptr : UInt32} {r : ℤ} (hS : k.runningPid ∈ S) (hk : k.vidmap b ptr = some (k', r)) :
    Writes S k k' := by
  by_cases hptr : Accepted ptr
  · rw [vidmap_of_accepted hptr] at hk
    obtain ⟨mem, hstore, he⟩ := Option.map_eq_some_iff.mp hk
    obtain ⟨rfl, -⟩ := Prod.mk.inj he
    refine ⟨⟨[], mem, rfl, fun x hx hx' ↦ ?_⟩, fun t ↦ ⟨rfl, rfl⟩⟩
    have hacc : Accounted b (k.videoMapped b).paging k.runningPid True := h.vidmap trivial
    refine hacc.store_frame hp hstore (fun i hi t ht ↦ ?_) hx (hx' _ hS)
    obtain ⟨hstart, hend⟩ := hptr
    refine hacc.walk_user hp (by omega) ?_ ht
    simp only [List.length_cons, List.length_nil] at hi
    simp only [fourMb]
    omega
  · rw [vidmap_of_not_accepted hptr] at hk
    obtain ⟨rfl, -⟩ := Prod.mk.inj (Option.some.inj hk)
    exact .text [] rfl fun _ ↦ ⟨rfl, rfl⟩

end Processes

section Events

variable {term : Fin maxTerminals}

theorem memcpy_frame {dest src : ℤ} (hx : x ∉ sharedPages)
    (hpage : Set.Ico dest (dest + screenBytes) ⊆ sharedPages) :
    memcpy mem dest src screenBytes x = mem x :=
  if_neg fun hin ↦ hx (hpage hin)

theorem screen_subset : Set.Ico video (video + screenBytes) ⊆ sharedPages := by
  refine subset_trans (fun x hx ↦ ?_) textMemory_subset
  obtain ⟨hle, hlt⟩ := hx
  refine ⟨hle, ?_⟩
  simp only [screenBytes, numRows, numCols] at hlt
  simp only [numRows, numCols]
  omega

theorem saved_subset {t : Fin maxTerminals} :
    Set.Ico (termPage t : ℤ) (termPage t + screenBytes) ⊆ sharedPages := by
  rintro x ⟨hle, hlt⟩
  refine mem_sharedPages_of_terminal hle (hlt.trans_le ?_)
  simp only [screenBytes, numRows, numCols, fourKb]
  omega

theorem Placed.leftFor_frame (h : Placed k) (hx : x ∉ sharedPages) :
    (k.leftFor term).console.mem x = k.console.mem x := by
  have hmem : (k.leftFor term).console.mem =
      memcpy k.console.mem (k.terminal k.termCur).vidMem video screenBytes := rfl
  rw [hmem, h.vidMem]
  exact memcpy_frame hx saved_subset

theorem showTerminal_frame (hx : x ∉ sharedPages) :
    (k.showTerminal term).console.mem x = k.console.mem x :=
  memcpy_frame hx screen_subset

theorem begun_frame (ht : (k.terminal term).OnScreen) (hx : x ∉ sharedPages) :
    (k.begun term).console.mem x = k.console.mem x := by
  have hw := (begun_writesIn ht).frame x fun hin ↦ hx (textMemory_subset hin)
  exact hw.trans (memcpy_frame hx screen_subset)

theorem Switched.storesIn (h : Switched b k term k') (hp : Placed k) (ht : InText k.console)
    (hs : SavedOnScreen k) (hl : Loadable b.image shellCommand)
    (hS : (k.terminal term).init = false → k'.termCur ≠ k.termCur → k'.runningPid ∈ S) :
    StoresIn S k.console.mem k'.console.mem := by
  intro x hx hx'
  have htext : x ∉ textMemory := fun hin ↦ hx (textMemory_subset hin)
  have hleft (hne : term ≠ k.termCur) : ((k.leftFor term).terminal term).OnScreen :=
    (Exchanged.leftFor_terminal term hne).symm ▸ hs term
  have hsave : (k.leftFor term).console.mem x = k.console.mem x := hp.leftFor_frame hx
  cases h with
  | same => rfl
  | refused s => exact (puts_writesIn ht.cursor s).frame x htext
  | loaded =>
    exact (showTerminal_frame (k := { k.leftFor term with esp0 := _, paging := _ }) hx).trans hsave
  | failed s hne =>
    refine ((puts_writesIn (onScreen_begun (hleft hne)) s).frame x htext).trans ?_
    exact (begun_frame (hleft hne) hx).trans hsave
  | started p mem hne hinit hpid hloads =>
    rw [runningPid_installed, Kernel.installed_termCur, (Exchanged.begun hne).termCur] at hS
    have hout : x < userBlock p ∨ userBlock p + fourMb ≤ x := by
      by_contra hin
      exact hx' p (hS hinit hne) ⟨by omega, by omega⟩
    refine (hloads.frame hpid hl hout).trans ?_
    exact (begun_frame (hleft hne) hx).trans hsave

theorem Forest.switch_fresh (hf : Forest k held) (hl : Loadable b.image shellCommand)
    (hk : k.step b (.console (.switch term)) = some k') (hinit : (k.terminal term).init = false)
    (hcur : k'.termCur ≠ k.termCur) : ¬ k.live k'.runningPid := by
  cases hf.transition hl hk with
  | quiet _ hs => exact absurd hs.termCur hcur
  | respawn hleaves => cases hleaves
  | resume hleaves => cases hleaves
  | load _ hload => exact Bool.noConfusion (hinit.symm.trans hload)
  | start _ _ hnew =>
    obtain ⟨-, hfresh, -⟩ := Kernel.getNewPid_eq_some hnew
    rw [runningPid_installed]
    intro hlive
    refine hfresh ?_
    rw [Kernel.live, Kernel.begun_flags]
    exact hlive

theorem Confined.event (hf : Forest k held) (hp : Placed k) (ht : InText k.console)
    (hs : SavedOnScreen k) (hl : Loadable b.image shellCommand) {e : Event}
    (hstays : StaysOnScreen k e) (hS : ¬ k.live k'.runningPid → k'.runningPid ∈ S)
    (hk : k.event b e = some k') : Confined S k k' := by
  have ht' := (ht.event_iff hs hk).mpr hstays
  refine ⟨ht', hs.event ht hk, fun x hx hx' ↦ ?_⟩
  have htext : x ∉ textMemory := fun hin ↦ hx (textMemory_subset hin)
  cases e with
  | key key =>
    obtain rfl := Option.some.inj hk
    exact (pressKey_writesIn ht.cursor ht'.cursor).frame x htext
  | output c =>
    obtain rfl := Option.some.inj hk
    exact (putc_writesIn ht.cursor c).frame x htext
  | read nbytes =>
    obtain ⟨⟨k₁, bytes⟩, hread, rfl⟩ := Option.map_eq_some_iff.mp hk
    unfold Kernel.terminalRead at hread
    split_ifs at hread
    obtain ⟨rfl, -⟩ := Prod.mk.inj (Option.some.inj hread)
    rfl
  | switch term =>
    have hfresh := hf.switch_fresh hl hk
    refine (switched_of_event hk).storesIn hp ht hs hl (fun hinit hcur ↦ ?_) x hx hx'
    exact hS (hfresh hinit hcur)

end Events

end ApollOS
