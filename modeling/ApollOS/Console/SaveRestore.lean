import ApollOS.Console.ScreenBounds
import ApollOS.Foundation.Multiplexer
import ApollOS.Process.ProcessForest

namespace ApollOS

open Function Runs Multiplexer Console

variable {b : Build} {m : Machine} {k k' k₀ : Kernel} {held : Fin maxTerminals → List ℕ}
  {a : Action} {e : Event} {term t u : Fin maxTerminals}

def Memory.page (m : Memory) (a : ℤ) : Fin screenBytes → UInt8 := fun j ↦ m (a + j.val)

section Pages

variable {mem mem' : Memory} {src : ℤ}

theorem page_memcpy_self {dest : ℤ} :
    (memcpy mem dest src screenBytes).page dest = mem.page src := by
  funext j
  have hin : dest ≤ dest + j.val ∧ dest + j.val < dest + screenBytes := by omega
  simp only [Memory.page, memcpy, if_pos hin]
  congr 1
  omega

theorem page_memcpy_of_ne (h : t ≠ u) :
    (memcpy mem (termPage u) src screenBytes).page (termPage t) = mem.page (termPage t) := by
  funext j
  have hval : t.val ≠ u.val := fun he ↦ h (Fin.ext he)
  have hj := j.isLt
  simp only [screenBytes, numRows, numCols] at hj
  have hout : ¬ ((termPage u : ℤ) ≤ termPage t + j.val ∧
      (termPage t : ℤ) + j.val < termPage u + screenBytes) := by
    simp only [termPage, fourKb, screenBytes, numRows, numCols]
    omega
  exact if_neg hout

theorem page_congr (h : ∀ a ∉ textMemory, mem' a = mem a) :
    mem'.page (termPage t) = mem.page (termPage t) := by
  funext j
  apply h
  simp only [textMemory, Set.mem_Ico, termPage, termMem, fourKb, video, numRows, numCols]
  omega

theorem page_memcpy_video :
    (memcpy mem video src screenBytes).page (termPage t) = mem.page (termPage t) := by
  apply page_congr
  intro a ha
  refine if_neg fun h ↦ ha ?_
  simp only [screenBytes, numRows, numCols] at h
  simp only [textMemory, numRows, numCols, Set.mem_Ico]
  omega

theorem page_loads {p : ℕ} {command : Command} (h : k.Loads b command p mem)
    (hp : p < maxProcesses) (hl : Loadable b.image command) :
    mem.page (termPage t) = k.console.mem.page (termPage t) := by
  funext j
  apply h.frame hp hl
  right
  simp only [userBlock, physicalStart, fourMb, termPage, termMem, fourKb, maxProcesses] at *
  omega

end Pages

/-- What a terminal's user sees and has typed: the line, the cursor and the screen. -/
structure Context where
  keyBuffer : KeyBuffer
  pos : UInt32
  posX : ℤ
  posY : ℤ
  screen : Fin screenBytes → UInt8

def Saved.context (s : Saved) (m : Memory) : Context :=
  ⟨s.keyBuffer, s.pos, s.posX, s.posY, m.page s.vidMem⟩

/-- The line of a terminal is always in its record, the rest is put there when the
terminal is left. -/
def Kernel.contexts (k : Kernel) : Mux (Fin maxTerminals) Context where
  cur := k.termCur
  live := ⟨k.keys, k.keyboard.keyBufferPos, k.console.screenX, k.console.screenY,
    k.console.mem.page video⟩
  saved t := (k.terminal t).saved.context k.console.mem

/-- The line in use is the current terminal's, every terminal has its page, and a
terminal that has not been started has its cursor at the top. -/
structure Placed (k : Kernel) : Prop where
  keyBuffer : k.keyBuffer = k.termCur
  vidMem : ∀ t, (k.terminal t).vidMem = termPage t
  current : k.current.init = true
  fresh : ∀ t, (k.terminal t).init = false → (k.terminal t).posX = 0 ∧ (k.terminal t).posY = 0

structure SamePlace (s s' : Terminal) : Prop where
  vidMem : s'.vidMem = s.vidMem
  init : s'.init = s.init
  posX : s'.posX = s.posX
  posY : s'.posY = s.posY

namespace Placed

theorem congr (h : Placed k) (hbuf : k'.keyBuffer = k.keyBuffer) (hcur : k'.termCur = k.termCur)
    (hterm : ∀ t, SamePlace (k.terminal t) (k'.terminal t)) : Placed k' where
  keyBuffer := by rw [hbuf, hcur, h.keyBuffer]
  vidMem t := (hterm t).vidMem.trans (h.vidMem t)
  current := by
    rw [Kernel.current, (hterm _).init, hcur]
    exact h.current
  fresh t ht := by
    rw [(hterm t).posX, (hterm t).posY]
    exact h.fresh t ((hterm t).init.symm.trans ht)

theorem quiet {S : Set ℕ} (h : Placed k) (hs : Local S k k') : Placed k' := by
  refine h.congr hs.keyBuffer hs.termCur fun t ↦ ?_
  obtain ⟨buf, hterm, -⟩ := hs.terminal t
  rw [hterm]
  exact ⟨rfl, rfl, rfl, rfl⟩

theorem setCurrent {s : Terminal} (hs : SamePlace k.current s) (t : Fin maxTerminals) :
    SamePlace (k.terminal t) (update k.terminal k.termCur s t) := by
  by_cases ht : t = k.termCur
  · subst ht
    rw [update_self]
    exact hs
  · rw [update_of_ne ht]
    exact ⟨rfl, rfl, rfl, rfl⟩

theorem installed {site : CallSite} {p : ℕ} {args : List UInt8} {mem : Memory} (h : Placed k) :
    Placed (k.installed b site p args mem) :=
  h.congr rfl rfl (setCurrent ⟨rfl, rfl, rfl, rfl⟩)

theorem retired (h : Placed k) : Placed k.retired :=
  h.congr rfl rfl (setCurrent ⟨rfl, rfl, rfl, rfl⟩)

theorem resumed {p : ℕ} (h : Placed k) : Placed (k.resumed p) :=
  h.congr rfl rfl (setCurrent ⟨rfl, rfl, rfl, rfl⟩)

theorem leftFor_init (h : Placed k) (ht : ((k.leftFor term).terminal t).init = false) :
    (k.leftFor term).terminal t = k.terminal t := by
  by_cases hcur : t = k.termCur
  · subst hcur
    rw [(Kernel.leftFor_sameStack k term).init] at ht
    exact Bool.noConfusion (ht.symm.trans h.current)
  · exact Exchanged.leftFor_terminal term hcur

theorem leftFor_vidMem (h : Placed k) : ((k.leftFor term).terminal t).vidMem = termPage t := by
  by_cases hcur : t = k.termCur
  · subst hcur
    rw [← h.vidMem]
    exact congrArg Saved.vidMem (Exchanged.leftFor_saved k term)
  · rw [Exchanged.leftFor_terminal term hcur]
    exact h.vidMem t

theorem loaded (h : Placed k) (hinit : (k.terminal term).init = true) :
    Placed ((k.leftFor term).terminalLoad term) where
  keyBuffer := rfl
  vidMem t := by
    rw [Kernel.terminalLoad_terminal]
    exact h.leftFor_vidMem
  current := (Kernel.leftFor_sameStack k term).init.trans hinit
  fresh t ht := by
    rw [Kernel.terminalLoad_terminal] at ht ⊢
    have hsame := h.leftFor_init ht
    rw [hsame] at ht ⊢
    exact h.fresh t ht

theorem begun (h : Placed k) : Placed ((k.leftFor term).begun term) := by
  obtain ⟨console, hbegun⟩ := (k.leftFor term).begun_eq term
  rw [hbegun]
  refine ⟨rfl, fun t ↦ ?_, ?_, fun t ht ↦ ?_⟩
  · by_cases hterm : t = term
    · subst hterm
      simp only [update_self]
      exact h.leftFor_vidMem
    · simp only [update_of_ne hterm]
      exact h.leftFor_vidMem
  · exact congrArg Terminal.init (update_self (f := (k.leftFor term).terminal) _ _)
  · by_cases hterm : t = term
    · subst hterm
      simp at ht
    · simp only [update_of_ne hterm] at ht ⊢
      have hsame := h.leftFor_init ht
      rw [hsame] at ht ⊢
      exact h.fresh t ht

theorem step (h : Placed k) (hf : Forest k held) (hl : Loadable b.image shellCommand)
    (hk : k.step b a = some k') : Placed k' := by
  cases hf.transition hl hk with
  | quiet _ hs => exact h.quiet hs
  | vidmap hs =>
    have hv : Placed (k.videoMapped b) := ⟨h.keyBuffer, h.vidMem, h.current, h.fresh⟩
    exact hv.quiet hs
  | launch => exact h.installed
  | respawn => exact h.retired.installed
  | resume => exact h.retired.resumed
  | load _ hinit => exact h.loaded hinit
  | start => exact h.begun.installed

theorem boots (hb : Boots b m k) : Placed k := by
  obtain ⟨-, hbuf, hsaved⟩ := boots_lines hb
  refine ⟨hbuf.trans (boots_termCur hb).symm, fun t ↦ congrArg Saved.vidMem (hsaved t),
    (boots_forest hb).current_init, fun t _ ↦ ?_⟩
  exact ⟨congrArg Saved.posX (hsaved t), congrArg Saved.posY (hsaved t)⟩

end Placed

section Contexts

theorem page_leftFor_self (h : Placed k) :
    (k.leftFor term).console.mem.page (termPage k.termCur) = k.console.mem.page video := by
  rw [← h.vidMem]
  exact page_memcpy_self

theorem page_leftFor_of_ne (h : Placed k) (ht : t ≠ k.termCur) :
    (k.leftFor term).console.mem.page (termPage t) = k.console.mem.page (termPage t) := by
  have hmem : (k.leftFor term).console.mem =
      memcpy k.console.mem (k.terminal k.termCur).vidMem video screenBytes := rfl
  rw [hmem, h.vidMem]
  exact page_memcpy_of_ne ht

theorem page_showTerminal :
    (k.showTerminal term).console.mem.page (termPage t) = k.console.mem.page (termPage t) :=
  page_memcpy_video

theorem page_begun (h : (k.terminal term).OnScreen) :
    (k.begun term).console.mem.page (termPage t) = k.console.mem.page (termPage t) :=
  (page_congr (begun_writesIn h).frame).trans page_showTerminal

theorem Placed.fresh_onScreen (h : Placed k) (hterm : term ≠ k.termCur)
    (hinit : (k.terminal term).init = false) : ((k.leftFor term).terminal term).OnScreen := by
  rw [Exchanged.leftFor_terminal term hterm]
  obtain ⟨hx, hy⟩ := h.fresh term hinit
  rw [Terminal.OnScreen, hx, hy]
  decide

theorem Switched.page (h : Switched b k term k') (hp : Placed k)
    (hl : Loadable b.image shellCommand) (hcur : k'.termCur ≠ k.termCur) :
    k'.console.mem.page (termPage t) = (k.leftFor term).console.mem.page (termPage t) := by
  cases h with
  | same => exact absurd rfl hcur
  | refused => exact absurd rfl hcur
  | loaded => exact page_showTerminal (k := { k.leftFor term with esp0 := _, paging := _ })
  | failed s hterm hinit =>
    have hscreen := hp.fresh_onScreen hterm hinit
    exact (page_congr (puts_writesIn (onScreen_begun hscreen) s).frame).trans (page_begun hscreen)
  | started p mem hterm hinit hpid hmem =>
    exact (page_loads hmem hpid hl).trans (page_begun (hp.fresh_onScreen hterm hinit))

theorem context_congr {mem mem' : Memory} (hp : Placed k)
    (hpage : mem'.page (termPage t) = mem.page (termPage t)) :
    (k.terminal t).saved.context mem' = (k.terminal t).saved.context mem := by
  have hvid : (k.terminal t).saved.vidMem = termPage t := hp.vidMem t
  rw [Saved.context, Saved.context, hvid, hpage]

theorem contexts_stay (hp : Placed k) (hcur : k'.termCur = k.termCur)
    (hterm : ∀ t ≠ k.termCur, k'.terminal t = k.terminal t)
    (hmem : ∀ a ∉ textMemory, k'.console.mem a = k.console.mem a) :
    Step k.contexts k'.contexts where
  others t ht := by
    change (k'.terminal t).saved.context k'.console.mem = _
    rw [hterm t ht]
    exact context_congr hp (page_congr hmem)
  left hne := absurd hcur hne

theorem contexts_quiet {S : Set ℕ} (hp : Placed k) (hs : Local S k k')
    (hmem : ∀ a ∉ textMemory, k'.console.mem a = k.console.mem a) :
    Step k.contexts k'.contexts :=
  contexts_stay hp hs.termCur (fun _ ht ↦ hs.terminal_of_ne (hp.keyBuffer ▸ ht)) hmem

theorem Switched.contexts_left (h : Switched b k term k') (hp : Placed k)
    (hl : Loadable b.image shellCommand) (hcur : k'.termCur ≠ k.termCur) :
    Step k.contexts k'.contexts := by
  rcases h.lines with hsame | hex
  · exact absurd hsame.termCur hcur
  · refine ⟨fun t ht ↦ ?_, fun _ ↦ ?_⟩
    · change (k'.terminal t).saved.context k'.console.mem = _
      rw [hex.saved t ht]
      exact context_congr hp ((h.page hp hl hcur).trans (page_leftFor_of_ne hp ht))
    · have hpage := (h.page hp hl hcur (t := k.termCur)).trans (page_leftFor_self hp)
      change (k'.terminal k.termCur).saved.context k'.console.mem = _
      rw [hex.saved_left, Saved.context, Kernel.unsaved, Kernel.current, hp.vidMem, hpage]
      rw [Kernel.contexts, Kernel.keys, hp.keyBuffer]

theorem Switched.contexts (h : Switched b k term k') (hp : Placed k)
    (hl : Loadable b.image shellCommand) (hc : k.console.OnScreen) :
    Step k.contexts k'.contexts := by
  by_cases hcur : k'.termCur = k.termCur
  · cases h with
    | same => exact contexts_stay hp rfl (fun _ _ ↦ rfl) fun _ _ ↦ rfl
    | refused s => exact contexts_stay hp rfl (fun _ _ ↦ rfl) (puts_writesIn hc s).frame
    | loaded hne => exact absurd hcur hne
    | failed s hne => exact absurd ((Exchanged.begun hne).termCur.symm.trans hcur) hne
    | started p mem hne => exact absurd ((Exchanged.begun hne).termCur.symm.trans hcur) hne
  · exact h.contexts_left hp hl hcur

/-- Every event of the console that keeps the cursor on the screen is a step of the
multiplexer. -/
theorem event_contexts (hp : Placed k) (hl : Loadable b.image shellCommand)
    (hc : k.console.OnScreen) (hc' : k'.console.OnScreen) (hk : k.event b e = some k') :
    Step k.contexts k'.contexts := by
  cases e with
  | key key =>
    obtain rfl := Option.some.inj hk
    exact contexts_quiet hp (Local.pressKey (S := ∅) key) (pressKey_writesIn hc hc').frame
  | output c =>
    obtain rfl := Option.some.inj hk
    exact contexts_stay hp rfl (fun _ _ ↦ rfl) (putc_writesIn hc c).frame
  | read nbytes =>
    obtain ⟨⟨k₁, bytes⟩, hread, rfl⟩ := Option.map_eq_some_iff.mp hk
    refine contexts_quiet hp (Local.terminalRead (S := ∅) hread) fun a _ ↦ ?_
    unfold Kernel.terminalRead at hread
    split_ifs at hread
    obtain ⟨rfl, -⟩ := Prod.mk.inj (Option.some.inj hread)
    rfl
  | switch term => exact (switched_of_event hk).contexts hp hl hc

theorem showTerminal_live :
    (k.showTerminal term).contexts.live = (k.terminal term).saved.context k.console.mem := by
  have hpage : (k.showTerminal term).console.mem.page video =
      k.console.mem.page (k.terminal term).vidMem := page_memcpy_self
  rw [Kernel.contexts, hpage]
  rfl

theorem terminalLoad_live (hp : Placed k) (hterm : term ≠ k.termCur) :
    ((k.leftFor term).terminalLoad term).contexts.live = k.contexts.saved term := by
  refine (showTerminal_live (k := { k.leftFor term with esp0 := _, paging := _ })).trans ?_
  change ((k.leftFor term).terminal term).saved.context (k.leftFor term).console.mem = _
  rw [Exchanged.leftFor_terminal term hterm]
  exact context_congr hp (page_leftFor_of_ne hp hterm)

end Contexts

/-- The invariants of the terminals' records, which hold in every reachable state. -/
def PlacedForest (k : Kernel) : Prop := (∃ held, Forest k held) ∧ Placed k

namespace PlacedForest

theorem step (h : PlacedForest k) (hl : Loadable b.image shellCommand)
    (hk : k.step b a = some k') : PlacedForest k' := by
  obtain ⟨⟨held, hf⟩, hp⟩ := h
  obtain ⟨held', hf', -⟩ := hf.step hl hk
  exact ⟨⟨held', hf'⟩, hp.step hf hl hk⟩

theorem reachable {es : List Action} (hb : Boots b m k₀)
    (hr : run (Kernel.step b) k₀ es = some k) : PlacedForest k :=
  invariant (fun _ _ _ h hk ↦ h.step (boots_cases hb).1 hk) ⟨⟨_, boots_forest hb⟩, .boots hb⟩ hr

theorem started (h : PlacedForest k) (hl : Loadable b.image shellCommand)
    (hk : k.step b a = some k') (ht : t ≠ k'.termCur) (hinit : (k.terminal t).init = true) :
    (k'.terminal t).init = true := by
  obtain ⟨⟨held, hf⟩, -⟩ := h
  obtain ⟨held', -, hsame⟩ := hf.step hl hk
  exact (hsame t ht).2.init.trans hinit

theorem away {es : List Event} {v : Kernel} (h : PlacedForest k)
    (hl : Loadable b.image shellCommand) (hinit : (k.terminal t).init = true)
    (haway : ∀ v, Passes (Kernel.event b) k es v → v.termCur ≠ t)
    (hv : Passes (Kernel.event b) k es v) : PlacedForest v ∧ (v.terminal t).init = true := by
  refine guarded_invariant (I := fun v ↦ PlacedForest v ∧ (v.terminal t).init = true)
    (G := fun v e ↦ Visits (Kernel.event b) k es v e) ?_ ⟨h, hinit⟩ (fun _ _ hv ↦ hv) hv
  intro v e v' hinv hvisit hstep
  have hne := (haway v' (hvisit.passes_next hstep)).symm
  obtain ⟨hplaced, hstarted⟩ := hinv
  have hact : v.step b (.console e) = some v' := hstep
  exact ⟨hplaced.step hl hact, hplaced.started hl hact hne hstarted⟩

end PlacedForest

/-- A terminal that is left and come back to, while in between the cursor is kept on
the screen and the position in the key buffer: its line, its cursor and its screen are
what they were, and until then its place holds them. -/
theorem terminal_restored {k₁ k₂ k₃ : Kernel} {acts : List Action} {es : List Event}
    (hb : Boots b m k₀) (hr : run (Kernel.step b) k₀ acts = some k)
    (hleave : k.event b (.switch term) = some k₁) (hleft : k₁.termCur ≠ k.termCur)
    (hrun : run (Kernel.event b) k₁ es = some k₂)
    (hg : ∀ v, Passes (Kernel.event b) k₁ es v → v.termCur ≠ k.termCur ∧ v.console.OnScreen ∧
      v.keyboard.keyBufferPos.toNat ≤ keyBufferSize)
    (hback : k₂.event b (.switch k.termCur) = some k₃) :
    (k₃.termCur = k.termCur ∧ k₃.contexts.live = k.contexts.live) ∧
    ∀ v, Passes (Kernel.event b) k₁ es v → v.contexts.saved k.termCur = k.contexts.live := by
  have hl := (boots_cases hb).1
  have h := PlacedForest.reachable hb hr
  have hact : k.step b (.console (.switch term)) = some k₁ := hleave
  have hinit₁ := h.started hl hact hleft.symm h.2.current
  have haway := fun {v} ↦ (h.step hl hact).away (v := v) hl hinit₁ fun v hv ↦ (hg v hv).1
  have hkept : ∀ v, Passes (Kernel.event b) k₁ es v →
      v.contexts.saved k.termCur = k.contexts.live := by
    intro v hv
    refine saved_of_left Kernel.contexts
      ((switched_of_event hleave).contexts_left h.2 hl hleft) hleft ?_ (fun v hv ↦ (hg v hv).1) hv
    intro v e v' hvisit hstep
    exact event_contexts (haway hvisit.passes).1.2 hl (hg v hvisit.passes).2.1
      (hg v' (hvisit.passes_next hstep)).2.1 hstep
  refine ⟨?_, hkept⟩
  have hstop : Passes (Kernel.event b) k₁ es k₂ := .stop hrun
  obtain ⟨⟨-, hplaced⟩, hinit⟩ := haway hstop
  have hne := (hg k₂ hstop).1.symm
  cases switched_of_event hback with
  | same hsame => exact absurd hsame hne
  | refused s _ hfalse => exact Bool.noConfusion (hinit.symm.trans hfalse)
  | loaded => exact ⟨rfl, (terminalLoad_live hplaced hne).trans (hkept k₂ hstop)⟩
  | failed s _ hfalse => exact Bool.noConfusion (hinit.symm.trans hfalse)
  | started p mem _ hfalse => exact Bool.noConfusion (hinit.symm.trans hfalse)

section Sample

theorem boots_switch (hb : Boots b m k) : ∃ k₁, k.event b (.switch 1) = some k₁ ∧
    k₁.termCur = 1 ∧ k₁.console.OnScreen ∧ k₁.keyboard.keyBufferPos = 0 := by
  have hf := boots_forest hb
  have hcur := boots_termCur hb
  have hp : Placed k := .boots hb
  have hne : (1 : Fin maxTerminals) ≠ k.termCur := by
    rw [hcur]
    decide
  have hinit : (k.terminal 1).init = false := by
    have hiff := hf.started 1
    simpa using hiff
  have hroom : k.canExecute = true := by
    rw [hf.toStacked.canExecute_iff, Kernel.getNewPid_isSome_iff]
    refine ⟨1, by decide, fun hlive ↦ ?_⟩
    obtain ⟨t, ht⟩ := (hf.part.cover 1).mp hlive
    by_cases h0 : t = 0 <;> simp [h0] at ht
  obtain ⟨p, mem, entry, -, hswitch⟩ :=
    hf.switchTerminal_start (boots_cases hb).1 hne hinit hroom
  have hevent : k.event b (.switch 1) = some (((k.leftFor 1).begun 1).installed b .terminalStart p
      (commandArgs shellCommand.text) mem) := by
    rw [Kernel.event, hswitch]
    rfl
  refine ⟨_, hevent, ?_, ?_, ?_⟩
  · rw [Kernel.installed_termCur, Kernel.begun_termCur]
    rfl
  · exact onScreen_setMem (onScreen_begun (hp.fresh_onScreen hne hinit)) mem
  · have hkeyboard := (Exchanged.begun hne).keyboard
    have hpos : (k.terminal 1).keyBufferPos = 0 := congrArg Saved.pos ((boots_lines hb).2.2 1)
    change ((k.leftFor 1).begun 1).keyboard.keyBufferPos = 0
    rw [hkeyboard]
    exact hpos

/-- What happens on the second terminal before the first comes back. -/
def meantime : List Event := [.key (.char 98), .output 99]

theorem terminal_restored_sample : ∃ k k₁ k₂ k₃, Boots sampleBuild sampleMachine k ∧
    k.event sampleBuild (.switch 1) = some k₁ ∧ k₁.termCur = 1 ∧
    run (Kernel.event sampleBuild) k₁ meantime = some k₂ ∧
    k₂.keyboard.keyBufferPos.toNat = 1 ∧ k₂.event sampleBuild (.switch 0) = some k₃ ∧
    k₃.termCur = 0 ∧ k₃.contexts.live = k.contexts.live := by
  obtain ⟨k, hb⟩ := sample_boots
  have hcur := boots_termCur hb
  obtain ⟨k₁, hleave, hcur₁, hscreen, hpos⟩ := boots_switch hb
  have hleft : k₁.termCur ≠ k.termCur := by
    rw [hcur, hcur₁]
    decide
  have hr : run (Kernel.step sampleBuild) k [] = some k := rfl
  have hact : k.step sampleBuild (.console (.switch 1)) = some k₁ := hleave
  let u := k₁.enterChar 98
  let k₂ : Kernel := { u with console := u.console.putc 99 }
  have hzero : k₁.keyboard.keyBufferPos.toNat = 0 := by
    rw [hpos]
    rfl
  have hkey : k₁.event sampleBuild (.key (.char 98)) = some u := rfl
  have hout : u.event sampleBuild (.output 99) = some k₂ := rfl
  have hrun : run (Kernel.event sampleBuild) k₁ meantime = some k₂ := by
    rw [meantime, run_cons_of hkey, run_cons_of hout]
    rfl
  have hcur₂ : u.termCur = k₁.termCur := (Local.pressKey (S := ∅) (.char 98)).termCur
  have htyped : u.console.OnScreen := (onScreen_pressKey_iff hscreen (.char 98)).mpr trivial
  obtain ⟨-, hone, -⟩ := Kernel.enterChar_stored (k := k₁) (c := 98) (by rw [hzero]; decide)
    (by decide)
  rw [hzero] at hone
  have hg : ∀ v, Passes (Kernel.event sampleBuild) k₁ meantime v → v.termCur ≠ k.termCur ∧
      v.console.OnScreen ∧ v.keyboard.keyBufferPos.toNat ≤ keyBufferSize := by
    intro v hv
    rcases passes_next hkey hv with rfl | hv
    · exact ⟨hleft, hscreen, by rw [hzero]; decide⟩
    have hpos₂ : u.keyboard.keyBufferPos.toNat ≤ keyBufferSize := by
      rw [hone]
      decide
    rcases passes_next hout hv with rfl | hv
    · exact ⟨hcur₂ ▸ hleft, htyped, hpos₂⟩
    obtain rfl := passes_nil hv
    exact ⟨hcur₂ ▸ hleft, htyped.putc 99, hpos₂⟩
  have hp := PlacedForest.reachable hb hr
  have hl := (boots_cases hb).1
  have hinit₁ := hp.started hl hact hleft.symm hp.2.current
  have hinit := ((hp.step hl hact).away hl hinit₁ (fun v hv ↦ (hg v hv).1) (.stop hrun)).2
  have hback : k₂.event sampleBuild (.switch k.termCur) =
      some ((k₂.leftFor k.termCur).terminalLoad k.termCur) := by
    rw [Kernel.event, Kernel.switchTerminal_load (hg k₂ (.stop hrun)).1.symm hinit]
    rfl
  obtain ⟨⟨hcur₃, hlive⟩, -⟩ := terminal_restored hb hr hleave hleft hrun hg hback
  rw [hcur] at hback hcur₃
  exact ⟨k, k₁, k₂, _, hb, hleave, hcur₁, hrun, hone, hback, hcur₃, by rwa [hcur] at hlive⟩

end Sample

end ApollOS
