import ApollOS.Process.ProgramFile
import ApollOS.Process.Rounds

namespace ApollOS

open Function Runs FixedField Words WordStack

variable {b : Build} {m : Machine} {s : StackUse} {k k' k₀ k₁ k₂ : Kernel} {a : Action} {p used : ℕ}
  {args word rest : List UInt8} {words : List (List UInt8)} {nbytes : ℤ} {behind : ℕ → UInt8}
  {stacked : List UInt32}

/-- `ece391_getargs` with the arguments that are left: the return value and the bytes
stored in the buffer. -/
def ece391Getargs : List (List UInt8) → ℤ → ℤ × List UInt8
  | [], nbytes => if nbytes < 1 then (-1, []) else (0, [0])
  | [word], nbytes =>
    if word.length > nbytes then (-1, [])
    else if nbytes - word.length < 1 then (-1, word ++ [0]) else (0, word ++ [0])
  | word :: next :: words, nbytes =>
    if word.length > nbytes then (-1, [])
    else if nbytes - word.length < 1 then (-1, word ++ [0])
    else
      let (value, bytes) := ece391Getargs (next :: words) (nbytes - word.length - 1)
      (value, word ++ 32 :: bytes)

/-- A string in the array `args` of process `p`, with the NUL that ends it. -/
structure HoldsArgs (k : Kernel) (p : ℕ) (args : List UInt8) : Prop where
  length : (k.pcb p).args.length = maxArgsLength
  text : args ++ [0] <+: (k.pcb p).args
  nonzero : 0 ∉ args

section Emulation

theorem ece391Getargs_fits (h : ([32].intercalate words).length < nbytes) :
    ece391Getargs words nbytes = (0, [32].intercalate words ++ [0]) := by
  induction words generalizing nbytes with
  | nil =>
    rw [List.intercalate_nil, List.length_nil] at h
    exact if_neg (by omega)
  | cons word words ih =>
    cases words with
    | nil =>
      rw [List.intercalate_singleton] at h ⊢
      rw [ece391Getargs, if_neg (by omega), if_neg (by omega)]
    | cons next words =>
      rw [List.intercalate_cons_cons] at h ⊢
      simp only [List.length_append, List.length_singleton, Nat.cast_add] at h
      have hrest : ece391Getargs (next :: words) (nbytes - word.length - 1) =
          (0, [32].intercalate (next :: words) ++ [0]) := ih (by omega)
      rw [ece391Getargs, if_neg (by omega), if_neg (by omega), hrest]
      simp only [List.append_assoc, List.cons_append, List.nil_append]

end Emulation

section Getargs

theorem strncpy_args (hzero : 0 ∉ args) (hlen : args.length < maxArgsLength) :
    strncpy (cstr args) maxArgsLength =
      args ++ 0 :: List.replicate (maxArgsLength - (args.length + 1)) 0 := by
  have hcopied : ((List.range maxArgsLength).map (cstr args)).takeWhile (· ≠ 0) = args :=
    (content_getD hzero).trans (List.take_of_length_le hlen.le)
  rw [strncpy, hcopied, ← List.replicate_succ]
  congr 2
  omega

theorem HoldsArgs.of_strncpy (hzero : 0 ∉ args) (hlen : args.length < maxArgsLength)
    (h : (k.pcb p).args = strncpy (cstr args) maxArgsLength) : HoldsArgs k p args := by
  rw [strncpy_args hzero hlen] at h
  refine ⟨?_, ?_, hzero⟩
  · rw [h, List.length_append, List.length_cons, List.length_replicate]
    omega
  · rw [h]
    exact ⟨List.replicate (maxArgsLength - (args.length + 1)) 0, by simp⟩

theorem HoldsArgs.cstr_zero (h : HoldsArgs k p args) (hne : args ≠ []) :
    cstr (k.pcb p).args 0 ≠ 0 := by
  obtain ⟨c, rest, rfl⟩ := List.exists_cons_of_ne_nil hne
  obtain ⟨pad, hpad⟩ := h.text
  rw [← hpad]
  intro hc
  exact h.nonzero (hc ▸ List.mem_cons_self)

theorem HoldsArgs.getargs (h : HoldsArgs k p args) (hne : args ≠ []) :
    k.getargs p behind true nbytes =
      (0, (List.range (UInt32.ofInt (if nbytes > maxArgsLength then (maxArgsLength : ℤ)
        else nbytes)).toNat).map fun i ↦
          if i < maxArgsLength then cstr (k.pcb p).args i else behind i) :=
  if_neg (h.cstr_zero hne)

/-- What fits is delivered, and nothing behind the array is read for it. -/
theorem HoldsArgs.getargs_fits (h : HoldsArgs k p args) (hne : args ≠ [])
    (behind : ℕ → UInt8) (hn : args.length < nbytes) : ∃ bytes,
      k.getargs p behind true nbytes = (0, bytes) ∧ args ++ [0] <+: bytes ∧
        bytes.length ≤ nbytes := by
  obtain ⟨n, hcut, hle, hlen⟩ : ∃ n : ℕ, (UInt32.ofInt (if nbytes > maxArgsLength then
      (maxArgsLength : ℤ) else nbytes)).toNat = n ∧ n ≤ maxArgsLength ∧
      (args.length < n ∧ n ≤ nbytes) := by
    have hmax : maxArgsLength = 128 := rfl
    have hfit := h.text.length_le
    rw [h.length, List.length_append, List.length_singleton] at hfit
    split_ifs with hbig
    · exact ⟨maxArgsLength, toNat_ofInt (by omega) (by omega), le_rfl, by omega, by omega⟩
    · exact ⟨nbytes.toNat, toNat_ofInt (by omega) (by omega), by omega, by omega, by omega⟩
  have hbytes : (List.range n).map (fun i ↦
      if i < maxArgsLength then cstr (k.pcb p).args i else behind i) = (k.pcb p).args.take n := by
    rw [← map_getD_range (z := (0 : UInt8)) (by rwa [h.length])]
    refine List.map_congr_left fun i hi ↦ if_pos ?_
    exact (List.mem_range.mp hi).trans_le hle
  refine ⟨(k.pcb p).args.take n, ?_, ?_, ?_⟩
  · rw [h.getargs hne, hcut, hbytes]
  · refine List.prefix_take_iff.mpr ⟨h.text, ?_⟩
    rw [List.length_append, List.length_singleton]
    exact hlen.1
  · rw [List.length_take, h.length, Nat.min_eq_left hle]
    exact hlen.2

def ArgsIn (mem : Bytes) (k : Kernel) (p : ℕ) : Prop :=
  ∀ i < maxArgsLength, mem (getPcb p + (argsOffset + i).toUInt32) = cstr (k.pcb p).args i

theorem ArgsIn.getargsAt {mem : Bytes} {esp : UInt32} (h : ArgsIn mem k p)
    (hesp : getCurrentPcb esp = getPcb p) {buf : Bool} : getargsAt mem esp buf nbytes =
      k.getargs p (fun i ↦ mem (getPcb p + (argsOffset + i).toUInt32)) buf nbytes := by
  have hargs (i : ℕ) : mem (getPcb p + (argsOffset + i).toUInt32) =
      if i < maxArgsLength then cstr (k.pcb p).args i
      else mem (getPcb p + (argsOffset + i).toUInt32) := by
    split_ifs with hi
    · exact h i hi
    · rfl
  rw [ApollOS.getargsAt, Kernel.getargs, hesp]
  simp only [← hargs]

theorem ArgsIn.pushed {mem : Bytes} (h : ArgsIn mem k p) (hp : p < maxProcesses)
    (hs : SparesPcbs s k₂) (hw : 4 * stacked.length ≤ s.most) :
    ArgsIn (pushed mem k₂.esp0 stacked) k p := by
  intro i hi
  rw [hs _ _ hw p hp _ (by simp only [argsOffset, pcbSize, maxArgsLength] at *; omega)]
  exact h i hi

end Getargs

section Run

variable {es es' : List Action} {command : Command} {entry : UInt32} {c₀ : UInt8}

theorem commandWord_eq (hword : ∀ c ∈ word, endsWord c = false) (hrest : endsWord c₀ = true) :
    commandWord (word ++ c₀ :: rest) = word := by
  rw [commandWord, List.takeWhile_append_of_pos fun c hc ↦ by rw [hword c hc]; rfl,
    List.takeWhile_cons, hrest]
  exact List.append_nil word

theorem commandArgs_eq (hword : ∀ c ∈ word, endsWord c = false)
    (hargs : ∀ c ∈ args, endsArgs c = false) (hrest : ∀ c ∈ rest.head?, endsArgs c = true) :
    commandArgs (word ++ 32 :: (args ++ rest)) = args := by
  have hdrop : (word ++ 32 :: (args ++ rest)).dropWhile (!endsWord ·) = 32 :: (args ++ rest) := by
    rw [List.dropWhile_append_of_pos fun c hc ↦ by rw [hword c hc]; rfl]
    rfl
  have htake : rest.takeWhile (!endsArgs ·) = [] := by
    cases rest with
    | nil => rfl
    | cons c rest => simp [hrest c rfl]
  rw [commandArgs, hdrop]
  dsimp only
  rw [if_pos rfl, List.takeWhile_append_of_pos fun c hc ↦ by rw [hargs c hc]; rfl, htake,
    List.append_nil]

structure RunsWith (p : ℕ) (args : List UInt8) (k : Kernel) : Prop where
  forest : ∃ held, Forest k held
  live : k.live p
  holds : HoldsArgs k p args

theorem RunsWith.step (h : RunsWith p args k) (hl : Loadable b.image shellCommand)
    (hk : k.step b a = some k') (hstay : ¬ Ends p k a) : RunsWith p args k' := by
  obtain ⟨held, hf⟩ := h.forest
  obtain ⟨held', hf', -⟩ := hf.step hl hk
  obtain ⟨files, hpcb⟩ := hf.step_pcb hl hk h.live hstay
  have hargs : (k'.pcb p).args = (k.pcb p).args := by simp only [hpcb]
  exact ⟨⟨held', hf'⟩, hf.step_live hl hk h.live hstay,
    ⟨by rw [hargs]; exact h.holds.length, by rw [hargs]; exact h.holds.text, h.holds.nonzero⟩⟩

theorem Forest.execute_runsWith {held : Fin maxTerminals → List ℕ} (hf : Forest k held)
    (hl : Loadable b.image shellCommand) (hexit : Kernel.isExit command = false)
    (hargs : commandArgs command.text = args) (hzero : 0 ∉ args)
    (hx : k.execute b (some command) = some (k₁, .started entry)) :
    RunsWith k₁.runningPid args k₁ := by
  obtain ⟨held', hf', -⟩ := hf.step hl (Kernel.step_execute hx)
  rw [Kernel.execute_launch hexit] at hx
  rcases Kernel.launch_cases hx with ⟨v, s, ho, -⟩ | ⟨p, mem, e, -, hnew, -, rfl, -⟩
  · cases ho
  rw [runningPid_installed]
  refine ⟨⟨held', hf'⟩, (Kernel.live_installed hnew).mpr (.inr rfl), .of_strncpy hzero ?_ ?_⟩
  · exact hargs ▸ command.args_lt
  · simp only [Kernel.installed, update_self, hargs]

/-- What `execute` is given behind the word of a program, that program gets from `getargs` for as
long as it runs and the kernel stacks hold out. -/
theorem args_round_trip (hb : Boots b m k₀) (hr : RunsOnStack b s k₀ es k)
    (hword : ∀ c ∈ word, endsWord c = false) (hexit : ¬ ascii "exit" <+: word) (hne : args ≠ [])
    (hargs : ∀ c ∈ args, endsArgs c = false) (hrest : ∀ c ∈ rest.head?, endsArgs c = true)
    (htext : command.text = word ++ 32 :: (args ++ rest))
    (hx : k.executeWith b (k.currentPid (s.atPcb .execute)) (some command) =
      some (k₁, .started entry)) (hrun : RunsOnStack b s k₁ es' k₂)
    (hg : ∀ u a, Visits (Kernel.stepOnStack b s) k₁ es' u a → ¬ Ends k₁.runningPid u a)
    (hown : k₂.runningPid = k₁.runningPid) (hn : args.length < nbytes) :
    (∀ u, Passes (Kernel.stepOnStack b s) k₁ es' u → SparesPcbs s u) ∧
    ∀ mem, ArgsIn mem k₂ k₁.runningPid → ∀ stacked, 4 * stacked.length ≤ s.most →
      ∀ used ≤ s.most, ∃ bytes,
        getargsAt (pushed mem k₂.esp0 stacked) (k₂.esp0 - used.toUInt32) true nbytes =
          (0, bytes) ∧ args ++ [0] <+: bytes := by
  have hl := (boots_cases hb).1
  obtain ⟨held, hf⟩ := hr.forest hb
  rw [hr.currentPid_eq hb (s.atPcb_le _)] at hx
  have hnoexit : Kernel.isExit command = false := by
    rw [← Bool.not_eq_true, isExit_iff, htext, commandWord_eq hword rfl]
    exact hexit
  have hzero : 0 ∉ args := fun h ↦ absurd (hargs 0 h) (by decide)
  have hstart := hf.execute_runsWith hl hnoexit
    (by rw [htext, commandArgs_eq hword hargs hrest]) hzero hx
  have hruns {u : Kernel} (hu : Passes (Kernel.stepOnStack b s) k₁ es' u) :
      RunsWith k₁.runningPid args u :=
    hrun.invariant (fun _ hv ↦ hv.forest) (fun _ _ _ hv hs hno ↦ hv.step hl hs hno) hstart hg hu
  have hlt {u : Kernel} (hu : Passes (Kernel.stepOnStack b s) k₁ es' u) :
      u.runningPid < maxProcesses := by
    obtain ⟨held', hf'⟩ := (hruns hu).forest
    exact hf'.running_lt
  have hstop := Passes.stop hrun.run
  have hon := hrun.onStack
  refine ⟨fun u hu ↦ (hrun.room u hu).sparesPcbs (hlt hu), fun mem hmem stacked hw used hu ↦ ?_⟩
  have hp : k₁.runningPid < maxProcesses := hown ▸ hlt hstop
  have hfound : getCurrentPcb (k₂.esp0 - used.toUInt32) = getPcb k₁.runningPid :=
    hown ▸ hon.getCurrentPcb_eq (hlt hstop) hu
  obtain ⟨bytes, hcall, hprefix, -⟩ := (hruns hstop).holds.getargs_fits hne
    (fun i ↦ pushed mem k₂.esp0 stacked (getPcb k₁.runningPid + (argsOffset + i).toUInt32)) hn
  refine ⟨bytes, ?_, hprefix⟩
  rw [(hmem.pushed hp (hon.sparesPcbs (hlt hstop)) hw).getargsAt hfound]
  exact hcall

end Run

/-- `getargs` and `ece391_getargs` come to the same for a process with the arguments
`words`, and `getargs` stores no more than was asked for. -/
structure GetargsAgrees (k : Kernel) (p : ℕ) (behind : ℕ → UInt8) (words : List (List UInt8))
    (nbytes : ℤ) : Prop where
  value : (k.getargs p behind true nbytes).1 = (ece391Getargs words nbytes).1
  short : nbytes ≤ ([32].intercalate words).length → (k.getargs p behind true nbytes).1 = -1
  fits : ([32].intercalate words).length < nbytes → (k.getargs p behind true nbytes).1 = 0 ∧
    [32].intercalate words ++ [0] <+: (k.getargs p behind true nbytes).2
  bounded : (k.getargs p behind true nbytes).2.length ≤ max nbytes 0

theorem GetargsAgrees.fits_in (hagrees : GetargsAgrees k p behind words nbytes)
    (h : HoldsArgs k p ([32].intercalate words)) (hne : [32].intercalate words ≠ []) :
    ([32].intercalate words).length < nbytes := by
  by_contra hlt
  have hshort := hagrees.short (not_lt.mp hlt)
  rw [h.getargs hne] at hshort
  exact absurd hshort (show (0 : ℤ) ≠ -1 by decide)

/-- They agree exactly on the buffers that the arguments fit in. -/
theorem getargs_agrees_iff (h : HoldsArgs k p ([32].intercalate words))
    (hne : [32].intercalate words ≠ []) (behind : ℕ → UInt8) (nbytes : ℤ) :
    GetargsAgrees k p behind words nbytes ↔ ([32].intercalate words).length < nbytes := by
  constructor
  · exact fun hagrees ↦ hagrees.fits_in h hne
  · intro hlt
    obtain ⟨bytes, hcall, hprefix, hlen⟩ := h.getargs_fits hne behind hlt
    refine ⟨?_, fun hle ↦ absurd hlt (not_lt.mpr hle), fun _ ↦ ?_, ?_⟩
    · rw [hcall, ece391Getargs_fits hlt]
    · rw [hcall]
      exact ⟨rfl, hprefix⟩
    · rw [hcall]
      exact hlen.trans (le_max_left _ _)

section Sample

def argsCommand : Command := ⟨ascii "shell a b", by decide, by decide⟩

theorem argsCommand_loadable : Loadable sampleImage argsCommand :=
  ⟨.of (ascii "shell") 2 0, rfl, by decide, by decide⟩

theorem forall_mem_of_all {ends : UInt8 → Bool} {text : List UInt8}
    (h : text.all (!ends ·) = true) : ∀ c ∈ text, ends c = false :=
  fun c hc ↦ by simpa using List.all_eq_true.mp h c hc

def argsMemory (k : Kernel) (p : ℕ) : Bytes :=
  fun x ↦ cstr (k.pcb p).args (x - (getPcb p + argsOffset.toUInt32)).toNat

theorem argsMemory_argsIn : ArgsIn (argsMemory k p) k p := by
  intro i hi
  have hsub : getPcb p + (argsOffset + i).toUInt32 - (getPcb p + argsOffset.toUInt32) =
      i.toUInt32 := by
    have hsum : (argsOffset + i).toUInt32 = argsOffset.toUInt32 + i.toUInt32 := by
      simp only [Nat.toUInt32_eq, UInt32.ofNat_add]
    rw [hsum]
    grind
  have hi' : i.toUInt32.toNat = i := by
    simp only [maxArgsLength] at hi
    simpa using Nat.mod_eq_of_lt (show i < 2 ^ 32 by omega)
  rw [argsMemory, hsub, hi']

/-- Here the process has a program executed itself before it asks. -/
theorem args_round_trip_sample : ∃ k₀ k₁ k₂ entry bytes, Boots sampleBuild sampleMachine k₀ ∧
    k₀.execute sampleBuild (some argsCommand) = some (k₁, .started entry) ∧
    run (Kernel.stepOnStack sampleBuild sampleUse) k₁ (rounds shellCommand 1) = some k₂ ∧
    getargsAt (pushed (argsMemory k₂ k₁.runningPid) k₂.esp0 [1, 2, 3])
      (k₂.esp0 - (100 : ℕ).toUInt32) true 4 = (0, bytes) ∧ ascii "a b\x00" <+: bytes := by
  obtain ⟨k₀, k₁, entry, held, hb, hx, hf, -⟩ := sample_started argsCommand_loadable (by decide)
  have hon := boots_onStack (s := sampleUse) hb (by decide)
  have hf₀ := boots_forest hb
  have hx' : k₀.executeWith sampleBuild (k₀.currentPid (sampleUse.atPcb .execute))
      (some argsCommand) = some (k₁, .started entry) := by
    rw [hon.currentPid_eq hf₀.running_lt (sampleUse.atPcb_le _)]
    exact hx
  obtain ⟨k₂, hr, hrounded, hv, hend⟩ := sample_rounds (n := 1) hf
    (boots_child_canExecute hb (by decide) hx) (Kernel.execute_top (by decide) hx).1 (by decide)
  have htext : argsCommand.text = ascii "shell" ++ 32 :: (ascii "a b" ++ []) := rfl
  have hword : ∀ c ∈ ascii "shell", endsWord c = false := forall_mem_of_all (by decide)
  have hargs : ∀ c ∈ ascii "a b", endsArgs c = false := forall_mem_of_all (by decide)
  obtain ⟨-, hgets⟩ := args_round_trip hb (.nil hon) hword (by decide) (by decide) hargs
    (fun c hc ↦ by cases hc) htext hx'
    (.of_visits hr (fun u a h ↦ (hv u a h).1) (hend (by decide))) (fun u a h ↦ (hv u a h).2)
    hrounded.runningPid (show ((ascii "a b").length : ℤ) < 4 by decide)
  obtain ⟨bytes, hcall, hprefix⟩ := hgets _ argsMemory_argsIn [1, 2, 3] (by decide) 100 (by decide)
  exact ⟨k₀, k₁, k₂, entry, bytes, hb, hx, hr, hcall, hprefix⟩

def longArgs : List UInt8 := List.replicate 127 97

def longText : List UInt8 := ascii "shell" ++ 32 :: (longArgs ++ [])

theorem commandWord_longText : commandWord longText = ascii "shell" :=
  commandWord_eq (forall_mem_of_all (by decide)) rfl

theorem commandArgs_longText : commandArgs longText = longArgs := by
  refine commandArgs_eq (forall_mem_of_all (by decide)) (fun c hc ↦ ?_) fun c hc ↦ by cases hc
  obtain rfl := List.eq_of_mem_replicate hc
  rfl

def longCommand : Command where
  text := longText
  word_lt := by rw [commandWord_longText]; decide
  args_lt := by simp [commandArgs_longText, longArgs]

theorem longCommand_loadable : Loadable sampleImage longCommand := by
  obtain ⟨d, hname, hmagic, hlen⟩ := sampleImage_loadable
  refine ⟨d, ?_, hmagic, hlen⟩
  rw [show longCommand.text = longText from rfl, commandWord_longText]
  exact hname

/-- The NUL behind 127 bytes is the last byte of the array. -/
theorem getargsAt_last {mem : Bytes} {esp : UInt32} {bytes : List UInt8}
    (h : getargsAt mem esp true 128 = (0, bytes)) (hlen : args.length = 127)
    (hcopied : args ++ [0] <+: bytes) :
    mem (getCurrentPcb esp + (argsOffset + 127).toUInt32) = 0 := by
  have hlast := List.prefix_iff_getElem?.mp hcopied 127 (by simp [hlen])
  simp only [getargsAt, Bool.true_eq_false, if_false] at h
  rw [if_neg (show ¬ (128 : ℤ) > maxArgsLength by decide)] at h
  split_ifs at h
  · cases (Prod.mk.inj h).1
  · obtain rfl := (Prod.mk.inj h).2
    have hrange : (List.range (UInt32.ofInt 128).toNat)[127]? = some 127 := by decide
    rw [List.getElem?_map, hrange, Option.map_some] at hlast
    simpa [hlen] using hlast

theorem lowered_getCurrentPcb {esp : UInt32} {p n : ℕ} {more : List UInt32} (hp : p < maxProcesses)
    (hesp : esp.toNat = (getPcb p).toNat + n) (hn : n < eightKbBlock) (hw : 4 * more.length ≤ n) :
    getCurrentPcb (lowered esp more) = getPcb p := by
  have hbase := getPcb_toNat hp
  have hdown := toNat_sub_toUInt32 (x := esp) (n := 4 * more.length) (by omega)
  refine UInt32.toNat_inj.mp ?_
  simp only [maxProcesses, physicalStart, eightKbBlock] at *
  rw [lowered_eq, getCurrentPcb, UInt32.toNat_and, hdown, and_pcbMask (by omega)]
  simp only [eightKbBlock]
  omega

/-- A process with 127 bytes of arguments, and eighteen programs later: the pointer that `getargs`
is given lies over the NUL. -/
theorem args_overwritten : ∃ k₀ k₁ k₂ entry, Boots sampleBuild sampleMachine k₀ ∧
    k₀.execute sampleBuild (some longCommand) = some (k₁, .started entry) ∧
    run (Kernel.stepOnStack sampleBuild sampleUse) k₁ (rounds shellCommand 18) = some k₂ ∧
    k₂.runningPid = k₁.runningPid ∧
    ∃ p e saved, p.cpl = 3 ∧ p.reg .eax = Syscall.number .getargs ∧ p.reg .ebx = 0x8048010 ∧
      p.reg .ecx = 128 ∧ ArgsIn p.mem k₂ k₁.runningPid ∧ Reaches (sampleBoardOn k₂.esp0) p e ∧
      Enters e (sampleSymbols.function .getargs) [p.reg .ebx, p.reg .ecx, p.reg .edx] saved ∧
      ∀ more, 4 * more.length ≤ 300 → ¬ ∃ bytes,
        getargsAt (pushed e.mem e.esp more) (lowered e.esp more) true 128 = (0, bytes) ∧
          longArgs ++ [0] <+: bytes := by
  have hexit : Kernel.isExit longCommand = false := by
    rw [← Bool.not_eq_true, isExit_iff, show longCommand.text = longText from rfl,
      commandWord_longText]
    decide
  obtain ⟨k₀, k₁, entry, held, hb, hx, hf, -⟩ := sample_started longCommand_loadable hexit
  obtain ⟨htop, hlt⟩ := Kernel.execute_top hexit hx
  obtain ⟨k₂, hr, hrounded, -, -⟩ := sample_rounds hf (boots_child_canExecute hb hexit hx)
    htop le_rfl
  have hbase := getPcb_toNat hlt
  have hesp : k₂.esp0.toNat = (getPcb k₁.runningPid).toNat + 412 := by
    have hdown := hrounded.esp0
    have hdepth : (sampleBuild.depth .syscall).toNat = 432 := rfl
    rw [htop, kernelStackTop_toNat hlt, hdepth] at hdown
    simp only [maxProcesses, physicalStart, eightKbBlock, magicSize] at *
    omega
  let p : Processor := { sampleCaller 131 7 with
    reg := update (update (update (fun _ ↦ 0) .eax 7) .ebx 0x8048010) .ecx 128
    mem := argsMemory k₂ k₁.runningPid }
  have hcode : (sampleBoardOn k₂.esp0).code p.eip = some (.int 0x80, 132) := rfl
  have hring : p.cpl = 3 := by
    change Processor.ring userCs = 3
    decide
  obtain ⟨e, words, hreach, henters, -, hdown, -, -, -⟩ :=
    (sampleBoardOn_assembled k₂.esp0).calls_function (p := p) (by rw [hring]; decide) hcode
      (show p.reg .eax = Syscall.number .getargs from rfl)
  refine ⟨k₀, k₁, k₂, entry, hb, hx, hr, hrounded.runningPid, p, e, _, hring, rfl, rfl, rfl,
    argsMemory_argsIn, hreach, henters, fun more hmore ↦ ?_⟩
  rintro ⟨bytes, hcall, hprefix⟩
  have hbelow : e.esp.toNat = (getPcb k₁.runningPid).toNat + 348 := by
    have hstart : (sampleBoardOn k₂.esp0).esp0 = k₂.esp0 := rfl
    have hsub := toNat_sub_toUInt32 (x := k₂.esp0) (n := 64) (by omega)
    rw [hdown, hstart]
    exact hsub.trans (by omega)
  have hlast := getargsAt_last hcall (by simp [longArgs]) hprefix
  have hat : getPcb k₁.runningPid + (argsOffset + 127).toUInt32 = e.esp + 4 := by
    refine UInt32.toNat_inj.mp ?_
    simp only [maxProcesses, physicalStart, eightKbBlock] at hlt hbase
    rw [UInt32.toNat_add, UInt32.toNat_add, hbelow, hbase]
    rfl
  rw [lowered_getCurrentPcb hlt hbelow (by decide) (by omega), hat, pushed_frame] at hlast
  · have hlow := @load_low e.mem (e.esp + 4)
    rw [henters.stack.1, hlast] at hlow
    exact absurd (show (0x8048010 : UInt32).toUInt8 = 0 from hlow) (by decide)
  · unfold WordStack.Fits
    omega
  · have hmore := toNat_sub_toUInt32 (x := e.esp) (n := 4 * more.length) (by omega)
    simp only [maxProcesses, physicalStart, eightKbBlock] at hlt hbase
    rw [lowered_eq, mem_span, UInt32.toNat_sub, hmore, UInt32.toNat_add]
    have hfour : (4 : UInt32).toNat = 4 := rfl
    omega

theorem sample_holds : ∃ k₀ k₁ entry, Boots sampleBuild sampleMachine k₀ ∧
    k₀.execute sampleBuild (some argsCommand) = some (k₁, .started entry) ∧
    HoldsArgs k₁ k₁.runningPid ([32].intercalate [ascii "a", ascii "b"]) := by
  obtain ⟨k₀, k₁, entry, held, hb, hx, -⟩ := sample_started argsCommand_loadable (by decide)
  have hruns : RunsWith k₁.runningPid (ascii "a b") k₁ :=
    (boots_forest hb).execute_runsWith sampleImage_loadable (by decide) rfl (by decide) hx
  exact ⟨k₀, k₁, entry, hb, hx, hruns.holds⟩

/-- The kernel says that nothing went wrong where there is no room for the NUL, and where
the buffer ends before it begins. -/
theorem getargs_no_room : ∃ k₀ k₁ entry, Boots sampleBuild sampleMachine k₀ ∧
    k₀.execute sampleBuild (some argsCommand) = some (k₁, .started entry) ∧
    HoldsArgs k₁ k₁.runningPid ([32].intercalate [ascii "a", ascii "b"]) ∧
    (∀ behind, (k₁.getargs k₁.runningPid behind true 3).1 = 0) ∧
    (ece391Getargs [ascii "a", ascii "b"] 3).1 = -1 ∧
    (∀ behind, ¬ GetargsAgrees k₁ k₁.runningPid behind [ascii "a", ascii "b"] 3) ∧
    ∀ behind, (k₁.getargs k₁.runningPid behind true (-1)).1 = 0 ∧
      ¬ GetargsAgrees k₁ k₁.runningPid behind [ascii "a", ascii "b"] (-1) := by
  obtain ⟨k₀, k₁, entry, hb, hx, hholds⟩ := sample_holds
  have hne : [32].intercalate [ascii "a", ascii "b"] ≠ [] := by decide
  refine ⟨k₀, k₁, entry, hb, hx, hholds, fun behind ↦ ?_, by decide, fun behind h ↦ ?_,
    fun behind ↦ ⟨?_, fun h ↦ ?_⟩⟩
  · rw [hholds.getargs hne]
  · exact absurd (h.fits_in hholds hne) (by decide)
  · rw [hholds.getargs hne]
  · exact absurd (h.fits_in hholds hne) (by decide)

theorem getargs_agrees_iff_sample : ∃ k₁ : Kernel, HoldsArgs k₁ k₁.runningPid (ascii "a b") ∧
    GetargsAgrees k₁ k₁.runningPid (fun _ ↦ 1) [ascii "a", ascii "b"] 4 := by
  obtain ⟨k₀, k₁, entry, hb, hx, hholds⟩ := sample_holds
  exact ⟨k₁, hholds, (getargs_agrees_iff hholds (by decide) _ 4).mpr (by decide)⟩

end Sample

end ApollOS
