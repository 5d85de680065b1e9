import ApollOS.Process.Frame

namespace ApollOS

open Function

def programLength (img : Image) (inode : UInt32) : ℕ :=
  ((readData img inode 0 fourMb.toUInt32).getD []).length

/-- The first word of a command is the name of a file that starts like a program. -/
structure Program (img : Image) (command : Command) (dentry : Dentry) : Prop where
  name : readDentryByName img (cstr (commandWord command.text)) = some dentry
  magic : readInto img dentry.inodeNum 0 (List.replicate magicSize 0) = elfMagic

def entryPoint (img : Image) (dentry : Dentry) : UInt32 :=
  le32 (cstr (readInto img dentry.inodeNum 24 elfMagic)) 0

/-- A file that `execute` takes for a program and that fits the user page. -/
def Loadable (img : Image) (command : Command) : Prop :=
  ∃ dentry, readDentryByName img (cstr (commandWord command.text)) = some dentry ∧
    readInto img dentry.inodeNum 0 (List.replicate magicSize 0) = elfMagic ∧
    programLength img dentry.inodeNum ≤ virtualEnd - executeStart

section StoreBytes

variable {b : Build} {pg : Paging}

theorem storeBytes_isSome_iff {xs : List UInt8} {v : ℕ} {m : Memory} :
    (storeBytes b pg xs v m).isSome ↔ ∀ i < xs.length, (walk b pg (v + i)).isSome := by
  induction xs generalizing v m with
  | nil => simp [storeBytes]
  | cons x xs ih =>
    rw [List.length_cons, storeBytes]
    constructor
    · intro h i hi
      cases hw : walk b pg v with
      | none => simp [hw] at h
      | some t =>
        simp only [hw] at h
        cases i with
        | zero => simp [hw]
        | succ i =>
          have hi' := ih.mp h i (by omega)
          rwa [Nat.add_right_comm] at hi'
    · intro h
      obtain ⟨t, hw⟩ := Option.isSome_iff_exists.mp (h 0 (by omega))
      simp only [Nat.add_zero] at hw
      simp only [hw]
      refine ih.mpr fun i hi ↦ ?_
      have hi' := h (i + 1) (by omega)
      rwa [← Nat.add_assoc, Nat.add_right_comm] at hi'

theorem storeBytes_frame {xs : List UInt8} {v : ℕ} {m m' : Memory} {a : ℤ}
    (h : storeBytes b pg xs v m = some m')
    (ha : ∀ i < xs.length, ∀ t, walk b pg (v + i) = some t → a ≠ t.addr) : m' a = m a := by
  induction xs generalizing v m with
  | nil =>
    obtain rfl := Option.some.inj h
    rfl
  | cons x xs ih =>
    rw [storeBytes] at h
    cases hw : walk b pg v with
    | none => simp [hw] at h
    | some t =>
      simp only [hw] at h
      have hrest : m' a = update m (t.addr : ℤ) x a := by
        refine ih h fun i hi t' ht' ↦ ha (i + 1) ?_ t' ?_
        · rw [List.length_cons]
          omega
        · rwa [← Nat.add_assoc, Nat.add_right_comm]
      rw [hrest]
      exact update_of_ne (ha 0 (by simp) t (by simpa using hw)) _ _

theorem storeBytes_stored {xs : List UInt8} {v j : ℕ} {m m' : Memory} {t : Translation}
    (h : storeBytes b pg xs v m = some m') (hj : j < xs.length) (ht : walk b pg (v + j) = some t)
    (hlater : ∀ i, j < i → i < xs.length → ∀ t', walk b pg (v + i) = some t' → t'.addr ≠ t.addr) :
    m' t.addr = xs.getD j 0 := by
  induction xs generalizing v m j with
  | nil => exact absurd hj (Nat.not_lt_zero j)
  | cons x xs ih =>
    rw [storeBytes] at h
    cases hw : walk b pg v with
    | none => simp [hw] at h
    | some t₀ =>
      simp only [hw] at h
      rw [List.length_cons] at hj hlater
      cases j with
      | zero =>
        obtain rfl := Option.some.inj (hw.symm.trans ht)
        have hkept := storeBytes_frame (a := (t₀.addr : ℤ)) h fun i hi t' ht' ↦ by
          rw [Nat.add_assoc, Nat.add_comm 1 i] at ht'
          exact_mod_cast (hlater (i + 1) (by omega) (by omega) t' ht').symm
        rw [hkept, update_self, List.getD_cons_zero]
      | succ j =>
        rw [List.getD_cons_succ]
        refine ih h (by omega) ?_ fun i hi hi' t' ht' ↦ hlater (i + 1) (by omega) (by omega) t' ?_
        · rwa [Nat.add_assoc, Nat.add_comm 1 j]
        · rwa [Nat.add_assoc, Nat.add_comm 1 i] at ht'

theorem userBlock_lt {p : ℕ} (hp : p < maxProcesses) : userBlock p + 0x87 < 2 ^ 32 := by
  simp only [userBlock, physicalStart, fourMb, maxProcesses] at *
  omega

theorem walk_userBlock {p v : ℕ} (hp : p < maxProcesses)
    (hd : pg.pageDir (v / fourMb) = (userBlock p).toUInt32 ||| rwFlags) :
    walk b pg v = some ⟨userBlock p + v % fourMb, true⟩ := by
  have hlt := userBlock_lt hp
  have hmod : userBlock p % fourMb = 0 := by
    simp only [userBlock, physicalStart, fourMb]
    omega
  have hent : (pg.pageDir (v / fourMb)).toNat = userBlock p + 0x87 := by
    rw [hd, toNat_entry (by omega)]
    · rfl
    · simp only [userBlock, physicalStart, fourMb, fourKb]
      omega
    · decide
  exact walk_large hent hmod (by decide) (by decide) (by decide)

theorem walk_remap {p v : ℕ} (hp : p < maxProcesses) (hv : virtualStart ≤ v)
    (hv' : v < virtualEnd) :
    walk b (pg.remap virtualStart (userBlock p)) v = some ⟨userBlock p + v % fourMb, true⟩ := by
  have hdiv : v / fourMb = virtualStart / fourMb := by
    simp only [virtualStart, virtualEnd, fourMb] at *
    omega
  exact walk_userBlock hp (by simp [Paging.remap, hdiv])

/-- A program is copied in without a fault exactly if it ends within the user
page, as long as nothing is mapped behind that page. -/
theorem load_isSome_iff {p : ℕ} (hp : p < maxProcesses)
    (hend : walk b (pg.remap virtualStart (userBlock p)) virtualEnd = none) {xs : List UInt8}
    {m : Memory} :
    (storeBytes b (pg.remap virtualStart (userBlock p)) xs executeStart m).isSome ↔
      xs.length ≤ virtualEnd - executeStart := by
  rw [storeBytes_isSome_iff]
  constructor
  · intro h
    by_contra hlt
    have hi := h (virtualEnd - executeStart) (by omega)
    rw [Nat.add_sub_cancel' (by decide), hend] at hi
    exact absurd hi (by decide)
  · intro h i hi
    rw [walk_remap hp]
    · rfl
    · simp only [virtualStart, executeStart]
      omega
    · simp only [virtualEnd, executeStart] at *
      omega

theorem load_isSome {p : ℕ} (hp : p < maxProcesses) {xs : List UInt8} {m : Memory}
    (h : xs.length ≤ virtualEnd - executeStart) :
    (storeBytes b (pg.remap virtualStart (userBlock p)) xs executeStart m).isSome := by
  refine storeBytes_isSome_iff.mpr fun i hi ↦ ?_
  rw [walk_remap hp]
  · rfl
  · simp only [virtualStart, executeStart]
    omega
  · simp only [virtualEnd, executeStart] at *
    omega

theorem load_frame {p : ℕ} (hp : p < maxProcesses) {xs : List UInt8} {m m' : Memory} {a : ℤ}
    (h : storeBytes b (pg.remap virtualStart (userBlock p)) xs executeStart m = some m')
    (hlen : xs.length ≤ virtualEnd - executeStart)
    (ha : a < userBlock p ∨ userBlock p + fourMb ≤ a) : m' a = m a := by
  refine storeBytes_frame h fun i hi t ht ↦ ?_
  rw [walk_remap hp] at ht
  · obtain rfl := Option.some.inj ht
    have hmod : (executeStart + i) % fourMb < fourMb := Nat.mod_lt _ (by decide)
    dsimp only
    omega
  · simp only [virtualStart, executeStart]
    omega
  · simp only [virtualEnd, executeStart] at *
    omega

end StoreBytes

theorem afterCall_eq_some {α : Type} {r : Option (α × Outcome)} {x : α} {o : Outcome} {v : ℤ}
    (h : afterCall r (fun x ↦ some (x, .returned v)) = some (x, o)) : ∃ o', r = some (x, o') := by
  unfold afterCall at h
  split at h
  · obtain ⟨rfl, -⟩ := Prod.mk.inj (Option.some.inj h)
    exact ⟨_, rfl⟩
  · exact ⟨o, h⟩

namespace Kernel

variable {b : Build} {k k' : Kernel} {site : CallSite} {command : Command} {o : Outcome} {p q : ℕ}

/-- The kernel when a program has been started as process `p`. -/
def installed (k : Kernel) (b : Build) (site : CallSite) (p : ℕ) (args : List UInt8)
    (mem : Memory) : Kernel :=
  { k with
    console := { k.console with mem := mem }
    terminal := update k.terminal k.termCur
      { k.current with numProcesses := k.current.numProcesses + 1, termPid := p }
    paging := k.paging.remap virtualStart (userBlock p)
    processesFlags := k.processesFlags ||| 1#8 <<< p
    pcb := update k.pcb p
      { files := initFiles (k.pcb p).files
        pid := p
        args := strncpy (cstr args) maxArgsLength
        parentPid := if k.current.numProcesses = 0 then p else k.current.termPid
        parentEsp := k.esp0 - b.depth site }
    esp0 := kernelStackTop p }

/-- The memory after the file of a command has been copied in for process `p`. -/
def Loads (b : Build) (k : Kernel) (command : Command) (p : ℕ) (mem : Memory) : Prop :=
  ∃ dentry, readDentryByName b.image (cstr (commandWord command.text)) = some dentry ∧
    storeBytes b (k.paging.remap virtualStart (userBlock p))
      ((readData b.image dentry.inodeNum 0 fourMb.toUInt32).getD []) executeStart k.console.mem =
      some mem

theorem Loads.frame {mem : Memory} {a : ℤ} (h : k.Loads b command p mem) (hp : p < maxProcesses)
    (hl : Loadable b.image command) (ha : a < userBlock p ∨ userBlock p + fourMb ≤ a) :
    mem a = k.console.mem a := by
  obtain ⟨dentry, hname, hstore⟩ := h
  obtain ⟨dentry', hname', -, hlen⟩ := hl
  obtain rfl := Option.some.inj (hname.symm.trans hname')
  exact load_frame hp hstore hlen ha

theorem testBit_eq_zero_iff (f : BitVec 8) (i : ℕ) (hi : i < 8) :
    f &&& 1#8 <<< i = 0 ↔ f.getLsbD i = false := by
  constructor
  · intro h
    have hb := congrArg (BitVec.getLsbD · i) h
    simpa [hi] using hb
  · intro h
    refine BitVec.eq_of_getLsbD_eq fun j hj ↦ ?_
    by_cases hji : j = i
    · subst hji
      simp [h]
    · have : j < i ∨ 0 < j - i := by omega
      rcases this with h1 | h1
      · simp [h1]
      · have hne : j - i ≠ 0 := by omega
        simp [hj, hne]

theorem getLsbD_other (hq : q ≠ p) : (1#8 <<< p).getLsbD q = false := by
  simp only [BitVec.getLsbD_shiftLeft, BitVec.getLsbD_one, Bool.and_eq_false_iff]
  by_cases hlt : q < p
  · simp [hlt]
  · right
    simp only [decide_eq_false_iff_not]
    omega

theorem getLsbD_set {f : BitVec 8} (hp : p < maxProcesses) :
    (f ||| 1#8 <<< p).getLsbD q = true ↔ f.getLsbD q = true ∨ q = p := by
  have hp8 : p < 8 := hp.trans (by decide)
  by_cases hq : q = p
  · subst hq
    simp [hp8]
  · simp [getLsbD_other hq, hq]

theorem getLsbD_clear {f : BitVec 8} (hp : p < maxProcesses) :
    (f &&& ~~~(1#8 <<< p)).getLsbD q = true ↔ f.getLsbD q = true ∧ q ≠ p := by
  have hp8 : p < 8 := hp.trans (by decide)
  by_cases hq : q = p
  · subst hq
    simp [hp8]
  · have hlt : f.getLsbD q = true → q < 8 := BitVec.lt_of_getLsbD
    simpa [getLsbD_other hq, hq] using hlt

theorem getNewPid_eq_some {f : BitVec 8} (h : k.getNewPid = some (p, f)) :
    p < maxProcesses ∧ ¬ k.live p ∧ f = k.processesFlags ||| 1#8 <<< p := by
  obtain ⟨i, hi, he⟩ := Option.map_eq_some_iff.mp h
  obtain ⟨rfl, rfl⟩ := Prod.mk.inj he
  obtain ⟨hfree, hlt, -⟩ := List.find?_range_eq_some.mp hi
  have hlt : i < maxProcesses := List.mem_range.mp hlt
  have hzero := (testBit_eq_zero_iff k.processesFlags i (hlt.trans (by decide))).mp
    (by simpa using hfree)
  exact ⟨hlt, by simp [live, hzero], rfl⟩

theorem getNewPid_isSome_iff : k.getNewPid.isSome ↔ ∃ p < maxProcesses, ¬ k.live p := by
  rw [getNewPid, Option.isSome_map, List.find?_isSome]
  refine exists_congr fun p ↦ ?_
  rw [List.mem_range]
  refine and_congr_right fun hp ↦ ?_
  have hzero := testBit_eq_zero_iff k.processesFlags p (hp.trans (by decide))
  simpa [live] using hzero

theorem createPcb_eq_some (h : k.getNewPid = some (p, k.processesFlags ||| 1#8 <<< p)) :
    k.createPcb = some ({ k with processesFlags := k.processesFlags ||| 1#8 <<< p }.setPcb p
      fun pcb ↦ { pcb with
        pid := p
        parentPid := if k.current.numProcesses = 0 then p else k.current.termPid
        files := initFiles pcb.files
        args := List.replicate maxArgsLength 0 }, p) := by
  rw [createPcb, h]
  rfl

theorem loadProgram_createPcb {k₁ : Kernel} {inode : UInt32} {args : List UInt8}
    (h : k.createPcb = some (k₁, p)) :
    k₁.loadProgram b site p inode args =
      (storeBytes b (k.paging.remap virtualStart (userBlock p))
        ((readData b.image inode 0 fourMb.toUInt32).getD []) executeStart k.console.mem).map
        (k.installed b site p args) := by
  obtain ⟨⟨q, f⟩, hnew, he⟩ := Option.map_eq_some_iff.mp h
  obtain ⟨hk, rfl⟩ := Prod.mk.inj he
  obtain ⟨-, -, rfl⟩ := getNewPid_eq_some hnew
  subst hk
  unfold loadProgram
  simp only [setPcb, setTerminal, update_self, update_idem]
  rfl

theorem launch_of_not_program (h : ∀ dentry, ¬ Program b.image command dentry) :
    k.launch b site command = some (k, .returned (-1)) := by
  unfold launch
  split
  · rfl
  · rename_i dentry hname
    exact if_pos fun hmagic ↦ h dentry ⟨hname, hmagic⟩

theorem launch_of_full {dentry : Dentry} (h : Program b.image command dentry)
    (hfull : k.canExecute = false) : k.launch b site command =
      some ({ k with
        console := k.console.puts (ascii "Maximum number of processes reached\n") },
        .returned 0) := by
  unfold launch
  simp only [h.name, h.magic, ne_eq, not_true_eq_false, if_false, hfull, if_true]

theorem launch_of_program {dentry : Dentry} (h : Program b.image command dentry)
    (hcan : k.canExecute = true)
    (hnew : k.getNewPid = some (p, k.processesFlags ||| 1#8 <<< p)) :
    k.launch b site command =
      (storeBytes b (k.paging.remap virtualStart (userBlock p))
        ((readData b.image dentry.inodeNum 0 fourMb.toUInt32).getD []) executeStart
        k.console.mem).map fun mem ↦
          (k.installed b site p (commandArgs command.text) mem,
            .started (entryPoint b.image dentry)) := by
  have hcreate := createPcb_eq_some hnew
  unfold launch
  simp only [h.name, h.magic, ne_eq, not_true_eq_false, if_false, hcan, Bool.true_eq_false, hcreate]
  rw [loadProgram_createPcb hcreate, Option.map_map]
  rfl

theorem launch_of_no_pid {dentry : Dentry} (h : Program b.image command dentry)
    (hcan : k.canExecute = true) (hnone : k.getNewPid = none) :
    k.launch b site command = some (k, .returned (-1)) := by
  have hcreate : k.createPcb = none := by rw [createPcb, hnone, Option.map_none]
  unfold launch
  simp only [h.name, h.magic, ne_eq, not_true_eq_false, if_false, hcan, Bool.true_eq_false, hcreate]

/-- Either `execute` comes back, having printed at most a message, or it ends in
the program it has installed. -/
theorem launch_cases (h : k.launch b site command = some (k', o)) :
    (∃ v s, o = .returned v ∧ k' = { k with console := k.console.puts s }) ∨
    ∃ p mem entry, k.canExecute = true ∧ k.getNewPid = some (p, k.processesFlags ||| 1#8 <<< p) ∧
      o = .started entry ∧ k' = k.installed b site p (commandArgs command.text) mem ∧
      k.Loads b command p mem := by
  by_cases hprog : ∃ dentry, Program b.image command dentry
  · obtain ⟨dentry, hprog⟩ := hprog
    cases hcan : k.canExecute with
    | false =>
      rw [launch_of_full hprog hcan] at h
      obtain ⟨rfl, rfl⟩ := Prod.mk.inj (Option.some.inj h)
      exact .inl ⟨_, _, rfl, rfl⟩
    | true =>
      cases hnew : k.getNewPid with
      | none =>
        rw [launch_of_no_pid hprog hcan hnew] at h
        obtain ⟨rfl, rfl⟩ := Prod.mk.inj (Option.some.inj h)
        exact .inl ⟨_, [], rfl, rfl⟩
      | some r =>
        obtain ⟨p, f⟩ := r
        obtain ⟨-, -, rfl⟩ := getNewPid_eq_some hnew
        rw [launch_of_program hprog hcan hnew] at h
        obtain ⟨mem, hmem, he⟩ := Option.map_eq_some_iff.mp h
        obtain ⟨rfl, rfl⟩ := Prod.mk.inj he
        exact .inr ⟨p, mem, _, rfl, rfl, rfl, rfl, dentry, hprog.name, hmem⟩
  · rw [launch_of_not_program fun dentry hd ↦ hprog ⟨dentry, hd⟩] at h
    obtain ⟨rfl, rfl⟩ := Prod.mk.inj (Option.some.inj h)
    exact .inl ⟨_, [], rfl, rfl⟩

theorem launch_loadable (site : CallSite) (hl : Loadable b.image command)
    (hcan : k.canExecute = true)
    (hnew : k.getNewPid = some (p, k.processesFlags ||| 1#8 <<< p)) :
    ∃ mem entry, k.launch b site command =
      some (k.installed b site p (commandArgs command.text) mem, .started entry) := by
  obtain ⟨dentry, hname, hmagic, hlen⟩ := hl
  obtain ⟨hp, -, -⟩ := getNewPid_eq_some hnew
  have hload : (storeBytes b (k.paging.remap virtualStart (userBlock p))
      ((readData b.image dentry.inodeNum 0 fourMb.toUInt32).getD []) executeStart
      k.console.mem).isSome := load_isSome hp hlen
  obtain ⟨mem, hmem⟩ := Option.isSome_iff_exists.mp hload
  refine ⟨mem, entryPoint b.image dentry, ?_⟩
  rw [launch_of_program ⟨hname, hmagic⟩ hcan hnew, hmem, Option.map_some]

theorem loadable_of_started {entry : UInt32}
    (h : k.launch b site command = some (k', .started entry))
    (hend : ∀ p < maxProcesses,
      walk b (k.paging.remap virtualStart (userBlock p)) virtualEnd = none) :
    Loadable b.image command := by
  rcases launch_cases h with ⟨v, s, ho, -⟩ | ⟨p, mem, e, -, hnew, -, -, dentry, hname, hstore⟩
  · cases ho
  obtain ⟨hp, -, -⟩ := getNewPid_eq_some hnew
  have hlen := (load_isSome_iff hp (hend p hp)).mp (Option.isSome_of_eq_some hstore)
  by_cases hprog : ∃ dentry, Program b.image command dentry
  · obtain ⟨dentry', hname', hmagic⟩ := hprog
    obtain rfl := Option.some.inj (hname.symm.trans hname')
    exact ⟨dentry, hname, hmagic, hlen⟩
  · rw [launch_of_not_program fun dentry hd ↦ hprog ⟨dentry, hd⟩] at h
    cases h

end Kernel

end ApollOS
