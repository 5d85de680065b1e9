import ApollOS.Files.DirectoryListing
import ApollOS.Files.FileReads
import ApollOS.Process.Rounds
import ApollOS.Process.StoreBounds

namespace ApollOS

open Function Runs

variable {b : Build} {m : Machine} {s : StackUse} {k k' k₀ u v : Kernel}
  {held : Fin maxTerminals → List ℕ} {a : Action} {p : ℕ} {mem mem' : Memory}

/-- What happens on the machine, with the buffers of `read` and `getargs` in memory: the
kernel stores what it hands over wherever the pointer leads. -/
inductive Occurrence
  | happens (x : Happening)
  | reads (fd : ℤ) (buf : UInt32) (nbytes : ℤ)
  | getargs (behind : ℕ → UInt8) (buf : UInt32) (nbytes : ℤ)

namespace Kernel

def fill (b : Build) (k : Kernel) (buf : UInt32) (bytes : List UInt8) : Option Kernel :=
  (storeBytes b k.paging bytes buf.toNat k.console.mem).map fun mem ↦
    { k with console := { k.console with mem := mem } }

def occur (b : Build) (k : Kernel) (x : Occurrence) : Option Kernel :=
  match x with
  | .happens x => k.happen b x
  | .reads fd buf nbytes =>
    (k.readFd b k.runningPid fd (buf != 0) nbytes).bind fun (k, _, bytes) ↦ k.fill b buf bytes
  | .getargs behind buf nbytes =>
    k.fill b buf (k.getargs k.runningPid behind (buf != 0) nbytes).2

/-- What happens when every system call works on the PCB that it finds. -/
def occurOnStack (b : Build) (s : StackUse) (k : Kernel) (x : Occurrence) : Option Kernel :=
  match x with
  | .happens (.enters a) => k.stepOnStack b s a
  | .happens (.stores addr byte) => k.userStore b addr byte
  | .reads fd buf nbytes =>
    (k.readFd b (k.currentPid (s.atPcb .readFd)) fd (buf != 0) nbytes).bind
      fun (k, _, bytes) ↦ k.fill b buf bytes
  | .getargs behind buf nbytes =>
    k.fill b buf (k.getargs (k.currentPid (s.atPcb .getargs)) behind (buf != 0) nbytes).2

end Kernel

/-- The screen and the key buffer are not left, and a program has its buffers where it could store
itself. -/
def Proper (b : Build) (k : Kernel) : Occurrence → Prop
  | .happens (.enters (.console e)) => Contained k e
  | .happens _ => True
  | .reads fd buf nbytes => ∀ k' r bytes,
      k.readFd b k.runningPid fd (buf != 0) nbytes = some (k', r, bytes) →
        UserBuffer b k.paging buf.toNat bytes.length
  | .getargs behind buf nbytes => UserBuffer b k.paging buf.toNat
      (k.getargs k.runningPid behind (buf != 0) nbytes).2.length

instance (b : Build) (k : Kernel) (x : Occurrence) : Decidable (Proper b k x) :=
  match x with
  | .happens (.enters (.console e)) => inferInstanceAs (Decidable (Contained k e))
  | .happens (.enters (.execute _)) | .happens (.enters (.halt _)) | .happens (.enters (.fdCall _))
  | .happens (.enters (.vidmap _)) | .happens (.stores _ _) => isTrue trivial
  | .reads fd buf nbytes =>
    match h : k.readFd b k.runningPid fd (buf != 0) nbytes with
    | none => isTrue fun _ _ _ h' ↦ by cases h.symm.trans h'
    | some (_, _, bytes) => decidable_of_iff (UserBuffer b k.paging buf.toNat bytes.length)
        ⟨fun hu _ _ _ h' ↦ by cases h.symm.trans h'; exact hu, fun hu ↦ hu _ _ _ h⟩
  | .getargs behind buf nbytes => inferInstanceAs (Decidable (UserBuffer b k.paging buf.toNat
      (k.getargs k.runningPid behind (buf != 0) nbytes).2.length))

/-- What the running process does with its memory, its descriptors or its life. -/
inductive Uses : Occurrence → Prop
  | stores (addr : ℕ) (byte : UInt8) : Uses (.happens (.stores addr byte))
  | fdCall (call : FdCall) : Uses (.happens (.enters (.fdCall call)))
  | vidmap (ptr : UInt32) : Uses (.happens (.enters (.vidmap ptr)))
  | leaves {a : Action} : Leaves a → Uses (.happens (.enters a))
  | reads (fd : ℤ) (buf : UInt32) (nbytes : ℤ) : Uses (.reads fd buf nbytes)
  | getargs (behind : ℕ → UInt8) (buf : UInt32) (nbytes : ℤ) : Uses (.getargs behind buf nbytes)

def Acts (p : ℕ) (k : Kernel) (x : Occurrence) : Prop := k.runningPid = p ∧ Uses x

/-- The process whose page may be stored to: the one that runs afterwards, if it is new
or has done something itself. -/
def Kernel.disturbed (k k' : Kernel) (x : Occurrence) : Set ℕ :=
  {p | k'.runningPid = p ∧ (¬ k.live p ∨ Acts p k x)}

/-- All that is known of the state at any time about who can store where. -/
structure Separated (b : Build) (k : Kernel) : Prop where
  forest : ∃ held, Forest k held
  accounted : ∃ d, Accounted b k.paging k.runningPid d
  placed : Placed k
  inText : InText k.console
  saved : SavedOnScreen k

namespace Separated

theorem boots (hb : Boots b m k) : Separated b k :=
  ⟨⟨_, boots_forest hb⟩, ⟨_, boots_accounted hb⟩, .boots hb, (boots_inText hb).1,
    (boots_inText hb).2⟩

theorem running_lt (h : Separated b k) : k.runningPid < maxProcesses := by
  obtain ⟨held, hf⟩ := h.forest
  exact hf.running_lt

theorem setMem (h : Separated b k) (mem : Memory) :
    Separated b { k with console := { k.console with mem := mem } } := by
  obtain ⟨held, hf⟩ := h.forest
  exact ⟨⟨held, hf.congr (.io _ k.keyboard k.devices)⟩, h.accounted,
    h.placed.congr rfl rfl fun _ ↦ ⟨rfl, rfl, rfl, rfl⟩, h.inText.setMem mem, h.saved⟩

theorem confined (h : Separated b k) (hl : Loadable b.image shellCommand)
    (hstays : ∀ e, a = .console e → Contained k e) (hk : k.step b a = some k') :
    Confined (k.disturbed k' (.happens (.enters a))) k k' := by
  obtain ⟨held, hf⟩ := h.forest
  obtain ⟨d, hd⟩ := h.accounted
  cases a with
  | console e =>
    exact .event hf h.placed h.inText h.saved hl (hstays e rfl).screen
      (fun hfresh ↦ ⟨rfl, .inl hfresh⟩) hk
  | execute c =>
    obtain ⟨⟨k₁, o⟩, hr, rfl⟩ := Option.map_eq_some_iff.mp hk
    have hS (hnew : (k₁.runningPid = k.runningPid ∧ Leaves (.execute c)) ∨ ¬ k.live k₁.runningPid) :
        k₁.runningPid ∈ k.disturbed k₁ (.happens (.enters (.execute c))) :=
      ⟨rfl, hnew.symm.imp_right fun ⟨hsame, hleaves⟩ ↦ ⟨hsame.symm, .leaves hleaves⟩⟩
    exact (Writes.execute hf hl hd hS hr).confined h.inText h.saved
  | halt status =>
    obtain ⟨⟨k₁, o⟩, hr, rfl⟩ := Option.map_eq_some_iff.mp hk
    have hS (hnew : k₁.runningPid = k.runningPid ∨ ¬ k.live k₁.runningPid) :
        k₁.runningPid ∈ k.disturbed k₁ (.happens (.enters (.halt status))) :=
      ⟨rfl, hnew.symm.imp_right fun hsame ↦ ⟨hsame.symm, .leaves (.halt status)⟩⟩
    exact (Writes.halt hf hl hd hS hr).confined h.inText h.saved
  | vidmap ptr =>
    obtain ⟨⟨k₁, r⟩, hr, rfl⟩ := Option.map_eq_some_iff.mp hk
    have hpid : k₁.runningPid = k.runningPid := by
      rcases Kernel.vidmap_cases hr with ⟨rfl, -⟩ | ⟨mem, -, -, rfl⟩ <;> rfl
    have hself : k.runningPid ∈ k.disturbed k₁ (.happens (.enters (.vidmap ptr))) :=
      ⟨hpid, .inr ⟨rfl, .vidmap ptr⟩⟩
    exact (Writes.vidmap hd h.running_lt hself hr).confined h.inText h.saved
  | fdCall call =>
    obtain ⟨⟨k₁, r⟩, hr, rfl⟩ := Option.map_eq_some_iff.mp hk
    exact (Writes.fdCall hr).confined h.inText h.saved

theorem step (h : Separated b k) (hl : Loadable b.image shellCommand)
    (hstays : ∀ e, a = .console e → Contained k e) (hk : k.step b a = some k') :
    Separated b k' := by
  have hc := h.confined hl hstays hk
  obtain ⟨held, hf⟩ := h.forest
  obtain ⟨d, hd⟩ := h.accounted
  obtain ⟨held', hf', -⟩ := hf.step hl hk
  exact ⟨⟨held', hf'⟩, ⟨_, hf.step_accounted hl hd hk⟩, h.placed.step hf hl hk, hc.inText, hc.saved⟩

theorem fill (h : Separated b k) {buf : UInt32} {bytes : List UInt8}
    (huser : UserBuffer b k.paging buf.toNat bytes.length) (hk : k.fill b buf bytes = some k') :
    Separated b k' ∧ StoresIn {k.runningPid} k.console.mem k'.console.mem := by
  obtain ⟨mem, hstore, rfl⟩ := Option.map_eq_some_iff.mp hk
  obtain ⟨d, hd⟩ := h.accounted
  refine ⟨h.setMem mem, fun x hx hx' ↦ ?_⟩
  refine hd.store_frame h.running_lt hstore (fun i hi t ht ↦ ?_) hx (hx' _ rfl)
  obtain ⟨y, hy⟩ := huser i hi
  rw [hy] at ht
  obtain rfl := Option.some.inj ht
  rfl

theorem userStore (h : Separated b k) {addr : ℕ} {byte : UInt8}
    (hk : k.userStore b addr byte = some k') :
    Separated b k' ∧ StoresIn {k.runningPid} k.console.mem k'.console.mem := by
  obtain ⟨d, hd⟩ := h.accounted
  unfold Kernel.userStore at hk
  split at hk
  · cases hk
  · rename_i t ht
    split_ifs at hk with huser
    obtain rfl := Option.some.inj hk
    have haddr : UserAddress k.runningPid d addr t.addr :=
      hd.userAddress_of_walk h.running_lt (by rw [ht, ← huser])
    refine ⟨h.setMem _, fun x hx hx' ↦ update_of_ne ?_ _ _⟩
    rintro rfl
    exact haddr.shared_or_own.elim hx (hx' _ rfl)

end Separated

theorem fill_runningPid {buf : UInt32} {bytes : List UInt8} (hk : k.fill b buf bytes = some k') :
    k'.runningPid = k.runningPid := by
  obtain ⟨mem, -, rfl⟩ := Option.map_eq_some_iff.mp hk
  rfl

theorem userStore_runningPid {addr : ℕ} {byte : UInt8} (hk : k.userStore b addr byte = some k') :
    k'.runningPid = k.runningPid := by
  obtain ⟨mem, rfl⟩ := Kernel.userStore_eq_some hk
  rfl

/-- One occurrence keeps the processes apart, and stores in the pages that are shared and
in that of a process which is new or acts itself. -/
theorem Separated.occur (h : Separated b k) (hl : Loadable b.image shellCommand) {x : Occurrence}
    (hx : Proper b k x) (hk : k.occur b x = some k') :
    Separated b k' ∧ StoresIn (k.disturbed k' x) k.console.mem k'.console.mem := by
  have hself (hpid : k'.runningPid = k.runningPid) (huses : Uses x) :
      {k.runningPid} ⊆ k.disturbed k' x := by
    rintro p rfl
    exact ⟨hpid, .inr ⟨rfl, huses⟩⟩
  cases x with
  | happens x =>
    cases x with
    | enters a =>
      have hstays : ∀ e, a = .console e → Contained k e := by
        rintro e rfl
        exact hx
      exact ⟨h.step hl hstays hk, (h.confined hl hstays hk).stores⟩
    | stores addr byte =>
      obtain ⟨h', hstores⟩ := h.userStore hk
      exact ⟨h', hstores.mono (hself (userStore_runningPid hk) (.stores addr byte))⟩
  | reads fd buf nbytes =>
    obtain ⟨⟨k₁, r, bytes⟩, hread, hfill⟩ := Option.bind_eq_some_iff.mp hk
    have hstep : k.step b (.fdCall (.readFd fd (buf != 0) nbytes)) = some k₁ :=
      congrArg (Option.map Prod.fst) hread
    have hlocal := (FdEffect.readFd hread).toLocal (Set.mem_singleton k.runningPid)
    have huser := hx k₁ r bytes hread
    rw [← hlocal.paging] at huser
    obtain ⟨h', hstores⟩ := (h.step hl (fun e he ↦ Action.noConfusion he) hstep).fill huser hfill
    have hpid := hlocal.runningPid_eq
    rw [hpid, console_readFd hread] at hstores
    exact ⟨h', hstores.mono (hself ((fill_runningPid hfill).trans hpid) (.reads fd buf nbytes))⟩
  | getargs behind buf nbytes =>
    obtain ⟨h', hstores⟩ := h.fill hx hk
    exact ⟨h', hstores.mono (hself (fill_runningPid hk) (.getargs behind buf nbytes))⟩

section Arrival

variable {buf : UInt32} {bytes : List UInt8} {base : ℕ}

/-- What a call hands over arrives where the buffer leads, byte for byte, and changes nothing
else. -/
theorem fill_arrives (hwalk : ∀ i < bytes.length, ∃ user,
    walk b k.paging (buf.toNat + i) = some ⟨base + i, user⟩) : ∃ mem,
      k.fill b buf bytes = some { k with console := { k.console with mem := mem } } ∧
      (∀ i < bytes.length, mem ((base + i : ℕ) : ℤ) = bytes.getD i 0) ∧
      ∀ y, (∀ i < bytes.length, y ≠ ((base + i : ℕ) : ℤ)) → mem y = k.console.mem y := by
  have hstore : (storeBytes b k.paging bytes buf.toNat k.console.mem).isSome := by
    refine storeBytes_isSome_iff.mpr fun i hi ↦ ?_
    obtain ⟨user, hi⟩ := hwalk i hi
    exact Option.isSome_of_eq_some hi
  obtain ⟨mem, hmem⟩ := Option.isSome_iff_exists.mp hstore
  refine ⟨mem, congrArg (Option.map _) hmem, fun i hi ↦ ?_, fun y hy ↦ ?_⟩
  · obtain ⟨user, hat⟩ := hwalk i hi
    refine storeBytes_stored hmem hi hat fun j hij hj t ht ↦ ?_
    obtain ⟨user', hat'⟩ := hwalk j hj
    rw [hat'] at ht
    obtain rfl := Option.some.inj ht
    dsimp only
    omega
  · refine storeBytes_frame hmem fun i hi t ht ↦ ?_
    obtain ⟨user, hat⟩ := hwalk i hi
    rw [hat] at ht
    obtain rfl := Option.some.inj ht
    exact hy i hi

theorem occur_reads {fd nbytes r : ℤ} (hbuf : buf ≠ 0)
    (hread : k.readFd b k.runningPid fd true nbytes = some (k', r, bytes)) :
    k.occur b (.reads fd buf nbytes) = k'.fill b buf bytes := by
  have hnull : (buf != 0) = true := bne_iff_ne.mpr hbuf
  rw [Kernel.occur, hnull, hread, Option.bind_some]

/-- What a process reads into its own page it finds there. -/
theorem Separated.reads_arrive {fd nbytes r : ℤ} {v : Kernel} (h : Separated b k)
    (hread : k.readFd b k.runningPid fd true nbytes = some (v, r, bytes))
    (hstart : virtualStart ≤ buf.toNat) (hend : buf.toNat + bytes.length ≤ virtualEnd) : ∃ k',
      k.occur b (.reads fd buf nbytes) = some k' ∧
      (∀ j < bytes.length,
        k'.page k.runningPid (buf.toNat - virtualStart + j) = bytes.getD j 0) ∧
      SameProcesses v k' ∧ k'.opened k.runningPid = v.opened k.runningPid := by
  have hlocal := (FdEffect.readFd hread).toLocal (Set.mem_singleton k.runningPid)
  obtain ⟨d, hd⟩ := h.accounted
  have hbuf : buf ≠ 0 := by
    rintro rfl
    exact absurd hstart (by decide)
  have hwalk : ∀ j < bytes.length, ∃ user, walk b v.paging (buf.toNat + j) =
      some ⟨userBlock k.runningPid + (buf.toNat - virtualStart) + j, user⟩ := by
    intro j hj
    have hoffset : userBlock k.runningPid + (buf.toNat + j - virtualStart) =
        userBlock k.runningPid + (buf.toNat - virtualStart) + j := by omega
    rw [hlocal.paging, hd.walk_program h.running_lt (by omega) (by omega), hoffset]
    exact ⟨true, rfl⟩
  obtain ⟨mem, hfill, hstored, -⟩ := fill_arrives hwalk
  refine ⟨{ v with console := { v.console with mem := mem } },
    (occur_reads hbuf hread).trans hfill, fun j hj ↦ ?_, .io _ v.keyboard v.devices, rfl⟩
  rw [Kernel.page, ← hstored j hj, Nat.add_assoc]

/-- A process that reads a file into its own page finds the next piece of the file there. -/
theorem Reading.into_page {i : Fin maxFiles} {inode : UInt32} {total : ℕ} {nbytes : ℤ}
    (h : Separated b k) (hreading : Reading b k.runningPid i inode total k)
    (hw : b.image.WellFormed) (hi : inode < b.image.numInodes) (hn : 0 ≤ nbytes)
    (hstart : virtualStart ≤ buf.toNat) (hend : buf.toNat + nbytes.toNat ≤ virtualEnd) : ∃ k',
      k.occur b (.reads i.val buf nbytes) = some k' ∧
      (∀ j < (Reader.chunk (shownContent b.image inode) total nbytes.toNat).length,
        k'.page k.runningPid (buf.toNat - virtualStart + j) =
          (Reader.chunk (shownContent b.image inode) total nbytes.toNat).getD j 0) ∧
      Reading b k.runningPid i inode (total + nbytes.toNat) k' := by
  have hpage : virtualEnd < 2 ^ 31 := by decide
  obtain ⟨v, bytes, hread, rfl, hafter⟩ := hreading.readFd hw hi hn (by omega)
  have hfits : (Reader.chunk (shownContent b.image inode) total nbytes.toNat).length ≤
      nbytes.toNat := List.length_take_le _ _
  obtain ⟨k', hk, hstored, hsame, hopened⟩ := h.reads_arrive hread hstart (by omega)
  obtain ⟨⟨held, hf⟩, hlive, hopen⟩ := hafter
  exact ⟨k', hk, hstored, ⟨held, hf.congr hsame⟩, hsame.live_iff.mpr hlive, hopened ▸ hopen⟩

/-- A process that reads a directory into its own page finds the next name there. -/
theorem Listing.into_page {i : Fin maxFiles} {log : List ReadCall} {nbytes : ℤ}
    (h : Separated b k) (hlisting : Listing b k.runningPid i log k) (hd : b.image.Directory)
    (hn : (fileNameLength : ℤ) ≤ nbytes) (hstart : virtualStart ≤ buf.toNat)
    (hend : buf.toNat + fileNameLength ≤ virtualEnd) : ∃ k' value bytes,
      k.occur b (.reads i.val buf nbytes) = some k' ∧
      Lists b.image log.length ⟨nbytes, value, bytes⟩ ∧
      (∀ j < bytes.length,
        k'.page k.runningPid (buf.toNat - virtualStart + j) = bytes.getD j 0) ∧
      Listing b k.runningPid i (log ++ [⟨nbytes, value, bytes⟩]) k' := by
  obtain ⟨v, value, bytes, hread, hlen, hlist, hafter⟩ := hlisting.readFd hd hn
  obtain ⟨k', hk, hstored, hsame, hopened⟩ := h.reads_arrive hread hstart (by omega)
  obtain ⟨⟨held, hf⟩, hlive, hopen, hlists⟩ := hafter
  exact ⟨k', value, bytes, hk, hlist, hstored, ⟨held, hf.congr hsame⟩, hsame.live_iff.mpr hlive,
    hopened ▸ hopen, hlists⟩

end Arrival

section Runs

variable {xs ys : List Occurrence} {x : Occurrence}

theorem Separated.runs {es : List Action} (h : Separated b k) (hl : Loadable b.image shellCommand)
    (hr : run (Kernel.step b) k es = some k')
    (hstays : ∀ u e, Visits (Kernel.step b) k es u (.console e) → Contained u e) :
    Separated b k' :=
  guarded_invariant (G := fun u a ↦ ∀ e, a = .console e → Contained u e)
    (fun _ _ _ hu hG hk ↦ hu.step hl hG hk) h
    (fun u a hv e he ↦ hstays u e (by rwa [he] at hv)) (.stop hr)

theorem Separated.reachable (hb : Boots b m k₀) (hr : run (Kernel.occur b) k₀ xs = some u)
    (hx : ∀ w x, Visits (Kernel.occur b) k₀ xs w x → Proper b w x) : Separated b u :=
  guarded_invariant (fun _ _ _ h hx hk ↦ (h.occur (boots_cases hb).1 hx hk).1) (.boots hb) hx
    (.stop hr)

theorem OnStack.occurOnStack_eq (h : OnStack s k) (hp : k.runningPid < maxProcesses) :
    k.occurOnStack b s x = k.occur b x := by
  cases x with
  | happens x =>
    cases x with
    | enters a => exact h.stepOnStack_eq hp
    | stores addr byte => rfl
  | reads fd buf nbytes =>
    rw [Kernel.occurOnStack, h.currentPid_eq hp (s.atPcb_le _)]
    rfl
  | getargs behind buf nbytes =>
    rw [Kernel.occurOnStack, h.currentPid_eq hp (s.atPcb_le _)]
    rfl

/-- A run on which nothing is stored where it should not be, the kernel stacks holding out. -/
structure RunsProperly (b : Build) (s : StackUse) (k : Kernel) (xs : List Occurrence)
    (k' : Kernel) : Prop where
  run : run (Kernel.occurOnStack b s) k xs = some k'
  proper : ∀ w x, Visits (Kernel.occurOnStack b s) k xs w x → OnStack s w ∧ Proper b w x

namespace Separated

variable (h : Separated b k) (hl : Loadable b.image shellCommand)
  (hr : RunsProperly b s k xs u)

include h hl hr

theorem agrees : ∀ w x, Visits (Kernel.occurOnStack b s) k xs w x →
    w.occur b x = w.occurOnStack b s x := by
  intro w x hv
  have hw : Separated b w := by
    refine guarded_invariant (G := fun w x ↦ OnStack s w ∧ Proper b w x)
      (fun w x w' hw hG hk ↦ ?_) h hr.proper hv.passes
    rw [hG.1.occurOnStack_eq hw.running_lt] at hk
    exact (hw.occur hl hG.2 hk).1
  exact ((hr.proper w x hv).1.occurOnStack_eq hw.running_lt).symm

theorem run_occur : run (Kernel.occur b) k xs = some u :=
  (run_congr (h.agrees hl hr)).trans hr.run

theorem visits_occur {w : Kernel} (hv : Visits (Kernel.occur b) k xs w x) :
    Visits (Kernel.occurOnStack b s) k xs w x := visits_congr (h.agrees hl hr) hv

end Separated

theorem Forest.step_pcb_eq (hf : Forest k held) (hl : Loadable b.image shellCommand)
    (hk : k.step b a = some k') (hp : k.live p) (hstay : ¬ Ends p k a) (hcall : p ∉ k.caller a) :
    k'.pcb p = k.pcb p := by
  cases hf.transition hl hk with
  | quiet _ hs => exact hs.pcb p hcall
  | vidmap hs => exact hs.pcb p (Set.notMem_empty p)
  | launch _ hnew => exact update_of_ne (Kernel.fresh_ne hnew hp) _ _
  | respawn hleaves _ hnew =>
    have hne : p ≠ k.runningPid := fun he ↦ hstay ⟨he.symm, hleaves⟩
    have hlive := (hf.live_retired hf.current).mpr ⟨hp, hne⟩
    exact update_of_ne (Kernel.fresh_ne hnew hlive) _ _
  | resume => rfl
  | load => rfl
  | @start term q mem _ _ hnew =>
    have hlive : ((k.leftFor term).begun term).live p := by
      rw [Kernel.live, Kernel.begun_flags]
      exact hp
    refine (update_of_ne (Kernel.fresh_ne hnew hlive) _ _).trans ?_
    rw [Kernel.begun_pcb]
    rfl

theorem Separated.process (h : Separated b k) (hl : Loadable b.image shellCommand)
    (hp : k.live p) (hno : ¬ Acts p k x) (hk : k.occur b x = some k') :
    k'.live p ∧ k'.pcb p = k.pcb p := by
  have hfill {k₁ : Kernel} {buf : UInt32} {bytes : List UInt8}
      (hfill : k₁.fill b buf bytes = some k')
      (hlive : k₁.live p) (hpcb : k₁.pcb p = k.pcb p) : k'.live p ∧ k'.pcb p = k.pcb p := by
    obtain ⟨mem, -, rfl⟩ := Option.map_eq_some_iff.mp hfill
    exact ⟨hlive, hpcb⟩
  cases x with
  | happens x =>
    cases x with
    | enters a =>
      obtain ⟨held, hf⟩ := h.forest
      have hstay : ¬ Ends p k a := fun ⟨hpid, hleaves⟩ ↦ hno ⟨hpid, .leaves hleaves⟩
      refine ⟨hf.step_live hl hk hp hstay, hf.step_pcb_eq hl hk hp hstay ?_⟩
      rintro ⟨rfl, call, rfl⟩
      exact hno ⟨rfl, .fdCall call⟩
    | stores addr byte =>
      obtain ⟨mem, rfl⟩ := Kernel.userStore_eq_some hk
      exact ⟨hp, rfl⟩
  | reads fd buf nbytes =>
    obtain ⟨⟨k₁, r, bytes⟩, hread, hk⟩ := Option.bind_eq_some_iff.mp hk
    have hlocal := (FdEffect.readFd hread).toLocal (Set.mem_singleton k.runningPid)
    refine hfill hk (hlocal.live_iff.mpr hp) (hlocal.pcb p ?_)
    rintro rfl
    exact hno ⟨rfl, .reads fd buf nbytes⟩
  | getargs behind buf nbytes => exact hfill hk hp rfl

theorem Separated.of_runs (hb : Boots b m k₀) (hr : RunsProperly b s k₀ xs u) : Separated b u :=
  have hl := (boots_cases hb).1
  .reachable hb ((Separated.boots hb).run_occur hl hr) fun w x hv ↦
    (hr.proper w x ((Separated.boots hb).visits_occur hl hr hv)).2

theorem StandardForest.setMem (h : StandardForest k) (mem : Memory) :
    StandardForest { k with console := { k.console with mem := mem } } := by
  obtain ⟨⟨held, hf⟩, hs⟩ := h
  exact ⟨⟨held, hf.congr (.io _ k.keyboard k.devices)⟩, hs⟩

theorem StandardForest.occur (h : StandardForest k) (hl : Loadable b.image shellCommand)
    (hk : k.occur b x = some k') : StandardForest k' := by
  cases x with
  | happens x =>
    cases x with
    | enters a => exact h.step hl hk
    | stores addr byte =>
      obtain ⟨mem, rfl⟩ := Kernel.userStore_eq_some hk
      exact h.setMem mem
  | reads fd buf nbytes =>
    obtain ⟨⟨k₁, r, bytes⟩, hread, hfill⟩ := Option.bind_eq_some_iff.mp hk
    have hstep : k.step b (.fdCall (.readFd fd (buf != 0) nbytes)) = some k₁ :=
      congrArg (Option.map Prod.fst) hread
    obtain ⟨mem, -, rfl⟩ := Option.map_eq_some_iff.mp hfill
    exact (h.step hl hstep).setMem mem
  | getargs behind buf nbytes =>
    obtain ⟨mem, -, rfl⟩ := Option.map_eq_some_iff.mp hk
    exact h.setMem mem

theorem StandardForest.of_runs (hb : Boots b m k₀) (hr : RunsProperly b s k₀ xs u) :
    StandardForest u :=
  have hl := (boots_cases hb).1
  invariant (fun _ _ _ h hk ↦ h.occur hl hk) (.boots hb) ((Separated.boots hb).run_occur hl hr)

/-- The bytes lie in the kernel's page, between what has been loaded there and the PCBs. -/
structure InGap (b : Build) (loadedEnd buf n : ℕ) : Prop where
  start : fourMb ≤ loadedEnd
  pageTable : b.pageTableAddr + fourKb ≤ loadedEnd
  userTable : b.userTableAddr + fourKb ≤ loadedEnd
  low : loadedEnd ≤ buf
  high : buf + n ≤ (getPcb (maxProcesses - 1)).toNat

/-- Of the buffer that `read` fills only NULL is turned down: a process that gives an address in
the kernel's page has what it reads stored there. -/
theorem read_unchecked (hb : Boots b m k₀) (hr : RunsProperly b s k₀ xs u) (hon : OnStack s u)
    {fd nbytes r : ℤ} {buf : UInt32} {bytes : List UInt8}
    (hread : u.readFd b (u.currentPid (s.atPcb .readFd)) fd true nbytes = some (v, r, bytes))
    {loadedEnd : ℕ} (hgap : InGap b loadedEnd buf.toNat bytes.length) :
    ∃ k, u.occurOnStack b s (.reads fd buf nbytes) = some k ∧
      (∀ i < bytes.length, k.console.mem ((buf.toNat + i : ℕ) : ℤ) = bytes.getD i 0) ∧
      ∀ y, (∀ i < bytes.length, y ≠ ((buf.toNat + i : ℕ) : ℤ)) →
        k.console.mem y = u.console.mem y := by
  have hu := Separated.of_runs hb hr
  have hlow : fourMb ≤ buf.toNat := hgap.start.trans hgap.low
  have hhigh : buf.toNat + bytes.length ≤ 2 * fourMb := hgap.high.trans (by decide)
  rw [hon.currentPid_eq hu.running_lt (s.atPcb_le _)] at hread
  rw [hon.occurOnStack_eq hu.running_lt]
  obtain ⟨d, hd⟩ := hu.accounted
  have hbuf : buf ≠ 0 := by
    rintro rfl
    exact absurd hlow (by decide)
  have hlocal := (FdEffect.readFd hread).toLocal (Set.mem_singleton u.runningPid)
  have hwalk (i : ℕ) (hi : i < bytes.length) :
      ∃ user, walk b v.paging (buf.toNat + i) = some ⟨buf.toNat + i, user⟩ := by
    rw [hlocal.paging]
    exact ⟨false, hd.walk_kernel (by omega) (by omega)⟩
  obtain ⟨mem, hfill, hstored, hkept⟩ := fill_arrives hwalk
  refine ⟨_, (occur_reads hbuf hread).trans hfill, hstored, fun y hy ↦ (hkept y hy).trans ?_⟩
  exact congrFun (congrArg Console.mem (console_readFd hread)) y

end Runs

section Sample

theorem RunsProperly.nil : RunsProperly b s k [] k :=
  ⟨rfl, fun _ _ hv ↦ (visits_nil hv).elim⟩

theorem read_unchecked_sample : ∃ k₀ u k, Boots sampleBuild sampleMachine k₀ ∧
    k₀.fdCall sampleBuild 0 (.openFd (some (cstr (ascii "notes")))) = some (u, 2, []) ∧
    u.occurOnStack sampleBuild sampleUse (.reads 2 0x500000 3) = some k ∧
    k.console.mem 0x500000 = 97 := by
  obtain ⟨k₀, u, hb, hopen, hrunning⟩ := sample_opened notes_found
  have hon := boots_onStack (s := sampleUse) hb (by decide)
  have hlocal : Local {0} k₀ u := .fdCall rfl hopen
  have hon' : OnStack sampleUse u := hon.congr hlocal.toSameProcesses
  have hlt : k₀.runningPid < maxProcesses := by
    rw [boots_runningPid hb]
    decide
  have hreading := Reading.opened_now (i := 2) (boots_forest hb) (boots_live hb) notes_found hopen
  obtain ⟨v, bytes, hread, hbytes, -⟩ := hreading.readFd sampleImage_wellFormed (by decide)
    (show (0 : ℤ) ≤ 3 by decide) (by decide)
  have hthree : bytes = ascii "a b" := hbytes.trans (by decide)
  subst hthree
  rw [← hrunning, ← hon'.currentPid_eq (by rw [hrunning]; decide)
    (sampleUse.atPcb_le .readFd)] at hread
  have hstep : k₀.occurOnStack sampleBuild sampleUse
      (.happens (.enters (.fdCall (.openFd (some (cstr (ascii "notes"))))))) = some u := by
    rw [hon.occurOnStack_eq hlt, Kernel.occur, Kernel.happen, Kernel.step, boots_runningPid hb,
      hopen]
    rfl
  have hr : RunsProperly sampleBuild sampleUse k₀
      [.happens (.enters (.fdCall (.openFd (some (cstr (ascii "notes"))))))] u := by
    refine ⟨run_cons_eq_some.mpr ⟨u, hstep, rfl⟩, fun w x hv ↦ ?_⟩
    obtain ⟨rfl, rfl⟩ := visits_singleton hv
    exact ⟨hon, trivial⟩
  have hgap : InGap sampleBuild 0x407000 (0x500000 : UInt32).toNat (ascii "a b").length :=
    ⟨by decide, by decide, by decide, by decide, by decide⟩
  obtain ⟨k, hk, hmem, -⟩ := read_unchecked hb hr hon' hread hgap
  exact ⟨k₀, u, k, hb, hopen, hk, hmem 0 (by decide)⟩

end Sample

end ApollOS
