import ApollOS.Console.LineState
import ApollOS.Console.ScreenBounds
import ApollOS.Foundation.Isolation

namespace ApollOS

open Function Runs Isolation
open scoped BigOperators

variable {b : Build} {m : Machine} {k k' s k₀ : Kernel} {i t term : Fin maxTerminals} {e : Event}

structure Watched where
  kernel : Kernel
  own : Own

namespace Watched

def start (k : Kernel) : Watched := ⟨k, false, 7⟩

/-- The events of terminal `i`: all while it is current but the change to another. -/
def mine (i : Fin maxTerminals) (w : Watched) (e : Event) : Bool :=
  w.kernel.termCur = i && match e with
    | .switch _ => false
    | _ => true

def step (b : Build) (i : Fin maxTerminals) (w : Watched) (e : Event) : Option Watched :=
  (w.kernel.attempt b e).map fun k ↦ ⟨k, if w.mine i e then w.own.step w.kernel e else w.own⟩

end Watched

def eventsOf (b : Build) (i : Fin maxTerminals) (k : Kernel) (es : List Event) : List Event :=
  purge (Watched.step b i) (Watched.mine i) (.start k) es

def answersOf (b : Build) (i : Fin maxTerminals) (k : Kernel) (es : List Event) :
    List (Option (List UInt8)) :=
  outputs (Watched.step b i) (Watched.mine i) (fun w ↦ w.kernel.answer) (.start k) es

/-- The global flag and bound do not mislead terminal `i`: at a read the flag is up
exactly if one of its own Enters waits, and at a right arrow the cursor is before the
bound exactly if it is before its own. -/
def Undisturbed (i : Fin maxTerminals) (w : Watched) (e : Event) : Prop :=
  w.kernel.termCur = i → match e with
    | .read _ => w.kernel.keyboard.enterPressed = w.own.entered
    | .key .right => w.kernel.console.screenX < w.kernel.keyboard.rightBound ↔
        w.kernel.console.screenX < w.own.bound
    | _ => True

/-- No terminal has more than its shell. -/
structure Shells (k : Kernel) : Prop where
  placed : PlacedForest k
  few : ∀ t, (k.terminal t).numProcesses ≤ 1

namespace Shells

theorem room (h : Shells k) : k.canExecute = true := by
  have h0 := h.few 0
  have h1 := h.few 1
  have h2 := h.few 2
  simp only [Kernel.canExecute, decide_eq_true_iff, Fin.sum_univ_three, maxProcesses]
  omega

theorem quiet {S : Set ℕ} (h : Shells k) (hs : Local S k k') : Shells k' := by
  obtain ⟨⟨⟨held, hf⟩, hp⟩, hfew⟩ := h
  refine ⟨⟨⟨held, hf.congr hs.toSameProcesses⟩, hp.quiet hs⟩, fun t ↦ ?_⟩
  rw [hs.numProcesses]
  exact hfew t

theorem switch_cases (h : Shells k) (hl : Loadable b.image shellCommand)
    (hk : k.event b (.switch term) = some k') :
    (term = k.termCur ∧ k' = k) ∨ (Exchanged k term k' ∧ k'.unsaved = (k.terminal term).line) := by
  by_cases hne : term = k.termCur
  · rw [Kernel.event, Kernel.switchTerminal, if_pos hne] at hk
    exact .inl ⟨hne, (Option.some.inj hk).symm⟩
  · right
    have hterm : (k.leftFor term).terminal term = k.terminal term :=
      Exchanged.leftFor_terminal term hne
    cases hinit : (k.terminal term).init with
    | true =>
      rw [Kernel.event, Kernel.switchTerminal_load hne hinit] at hk
      obtain rfl := Option.some.inj hk
      refine ⟨.terminalLoad hne, ?_⟩
      rw [Terminal.line, if_pos hinit, ← hterm]
      rfl
    | false =>
      obtain ⟨⟨held, hf⟩, -⟩ := h.placed
      obtain ⟨p, mem, entry, -, hstart⟩ := hf.switchTerminal_start hl hne hinit h.room
      rw [Kernel.event, hstart] at hk
      obtain rfl := Option.some.inj hk
      refine ⟨(Exchanged.begun hne).congr .installed, ?_⟩
      have hcur : (k.leftFor term).termCur = term := rfl
      rw [installed_unsaved, begun_unsaved hcur, hterm, Terminal.line, if_neg (by simp [hinit])]

theorem switch_few (h : Shells k) (hl : Loadable b.image shellCommand)
    (hk : k.event b (.switch term) = some k') (t : Fin maxTerminals) :
    (k'.terminal t).numProcesses ≤ 1 := by
  obtain ⟨⟨held, hf⟩, -⟩ := h.placed
  have hact : k.step b (.console (.switch term)) = some k' := hk
  obtain ⟨held', hf', hsame⟩ := hf.step hl hact
  by_cases ht : t = k'.termCur
  · subst ht
    cases hf.transition hl hact with
    | quiet _ hs => exact (hs.numProcesses _).trans_le (h.few _)
    | respawn hleaves => nomatch hleaves
    | resume hleaves => nomatch hleaves
    | load =>
      have hstack := Kernel.leftFor_sameStack k term (t := term)
      exact hstack.numProcesses.trans_le (h.few term)
    | @start _ p mem _ hinit _ =>
      have hstack : Stacked ((k.leftFor term).begun term) held :=
        ((hf.toStacked.congr (.terminalSave k.termCur)).setCur term).begun term
      have hnil : held term = [] := by
        have hiff := hf.started term
        simpa [hinit] using hiff
      have hzero : ((k.leftFor term).begun term).current.numProcesses = 0 := by
        have hcur : (k.leftFor term).termCur = term := rfl
        rw [Kernel.current, Kernel.begun_termCur, hcur, hstack.count, hnil]
        rfl
      rw [Kernel.installed_termCur]
      simp only [Kernel.installed, update_self, hzero]
      omega
  · rw [(hsame t ht).2.numProcesses]
    exact h.few t

theorem switch (h : Shells k) (hl : Loadable b.image shellCommand)
    (hk : k.event b (.switch term) = some k') : Shells k' := by
  have hact : k.step b (.console (.switch term)) = some k' := hk
  exact ⟨h.placed.step hl hact, h.switch_few hl hk⟩

theorem switch_lineOf (h : Shells k) (hl : Loadable b.image shellCommand)
    (hk : k.event b (.switch term) = some k') : k'.lineOf t = k.lineOf t := by
  rcases h.switch_cases hl hk with ⟨-, rfl⟩ | ⟨hex, hlive⟩
  · rfl
  · obtain ⟨⟨held, hf⟩, hp⟩ := h.placed
    have hact : k.step b (.console (.switch term)) = some k' := hk
    obtain ⟨held', -, hsame⟩ := hf.step hl hact
    refine hex.lineOf hp.current (fun t ht ↦ ?_) hlive
    exact (hsame t (hex.termCur ▸ ht)).2.init

theorem switch_keyboard (h : Shells k) (hl : Loadable b.image shellCommand)
    (hk : k.event b (.switch term) = some k') : k'.termCur = term ∧
      k'.keyboard.enterPressed = k.keyboard.enterPressed ∧
      k'.keyboard.rightBound = k.keyboard.rightBound := by
  rcases h.switch_cases hl hk with ⟨hcur, rfl⟩ | ⟨hex, -⟩
  · exact ⟨hcur.symm, rfl, rfl⟩
  · rw [hex.keyboard]
    exact ⟨hex.termCur, rfl, rfl⟩

theorem boots (hb : Boots b m k) : Shells k := by
  have hf := boots_forest hb
  refine ⟨⟨⟨_, hf⟩, .boots hb⟩, fun t ↦ ?_⟩
  rw [hf.count]
  by_cases ht : t = 0 <;> simp [ht]

theorem exists_switch (h : Shells k) (hl : Loadable b.image shellCommand)
    (term : Fin maxTerminals) :
    ∃ k', k.event b (.switch term) = some k' := by
  by_cases hne : term = k.termCur
  · rw [Kernel.event, Kernel.switchTerminal, if_pos hne]
    exact ⟨_, rfl⟩
  · cases hinit : (k.terminal term).init with
    | true =>
      rw [Kernel.event, Kernel.switchTerminal_load hne hinit]
      exact ⟨_, rfl⟩
    | false =>
      obtain ⟨⟨held, hf⟩, -⟩ := h.placed
      obtain ⟨p, mem, entry, -, hstart⟩ := hf.switchTerminal_start hl hne hinit h.room
      rw [Kernel.event, hstart]
      exact ⟨_, rfl⟩

end Shells

/-- The watched kernel beside one that has terminal `i` only: the line is the same, and
the flag and the bound over there are those of terminal `i`. -/
structure Linked (i : Fin maxTerminals) (w : Watched) (s : Kernel) : Prop where
  shells : Shells w.kernel
  keyBuffer : s.keyBuffer = s.termCur
  line : w.kernel.lineOf i = s.unsaved
  flags : OwnFlags s w.own

namespace Linked

variable {w w' : Watched}

theorem here (h : Linked i w s) (he : Undisturbed i w e) (hcur : w.kernel.termCur = i) :
    Linked i ⟨w.kernel.here e, w.own.step w.kernel e⟩ (s.here e) ∧
      w.kernel.answer e = s.answer e := by
  have hp := h.shells.placed.2
  have hline := h.line
  rw [lineOf_current hcur.symm] at hline
  obtain ⟨-, hpos, hx, -, -⟩ := unsaved_inj hline
  have hlocal : Local ∅ w.kernel (w.kernel.here e) := here_local e
  have hlocal' : Local ∅ s (s.here e) := here_local e
  obtain ⟨hsame, hanswer⟩ : (w.kernel.here e).unsaved = (s.here e).unsaved ∧
      w.kernel.answer e = s.answer e := by
    refine here_congr hp.keyBuffer h.keyBuffer hline ?_ ?_
    · rintro nbytes rfl
      exact (he hcur).trans h.flags.entered.symm
    · rintro rfl
      rw [← hx, h.flags.bound]
      exact he hcur
  refine ⟨⟨h.shells.quiet hlocal, ?_, ?_, ?_⟩, hanswer⟩
  · rw [hlocal'.keyBuffer, hlocal'.termCur, h.keyBuffer]
  · rw [← hsame]
    exact lineOf_current (hcur.symm.trans hlocal.termCur.symm)
  · rw [own_congr hpos]
    exact h.flags.here e

theorem away (h : Linked i w s) (hcur : w.kernel.termCur ≠ i) :
    Linked i ⟨w.kernel.here e, w.own⟩ s := by
  have hlocal : Local ∅ w.kernel (w.kernel.here e) := here_local e
  refine ⟨h.shells.quiet hlocal, h.keyBuffer, ?_, h.flags⟩
  exact (lineOf_quiet hlocal h.shells.placed.2.keyBuffer hcur.symm).trans h.line

theorem switch (h : Linked i w s) (hl : Loadable b.image shellCommand)
    (hk : w.kernel.event b (.switch term) = some k') : Linked i ⟨k', w.own⟩ s :=
  ⟨h.shells.switch hl hk, h.keyBuffer, (h.shells.switch_lineOf hl hk).trans h.line, h.flags⟩

end Linked

theorem attempt_eq (he : ∀ term, e ≠ .switch term) : k.attempt b e = some (k.here e) := by
  cases e with
  | switch term => exact absurd rfl (he term)
  | _ => rfl

theorem Watched.mine_eq_true {w : Watched} :
    Watched.mine i w e = true ↔ w.kernel.termCur = i ∧ ∀ term, e ≠ .switch term := by
  cases e <;> simp [Watched.mine]

/-- One step: an event of terminal `i` is the same on the other side, and what happens
elsewhere is not noticed there. -/
theorem watched_unwinds (hl : Loadable b.image shellCommand) (i : Fin maxTerminals) :
    Unwinds (Watched.step b i) (Watched.mine i) (fun w ↦ w.kernel.answer) Kernel.here
      Kernel.answer (Linked i) (Undisturbed i) where
  mine w s e w' h he hw hmine := by
    obtain ⟨hcur, hswitch⟩ := Watched.mine_eq_true.mp hmine
    rw [Watched.step, attempt_eq hswitch, if_pos hmine] at hw
    obtain rfl := Option.some.inj hw
    exact h.here he hcur
  others w s e w' h hw hmine := by
    rw [Watched.step, if_neg (by simp [hmine])] at hw
    obtain ⟨k', hk, rfl⟩ := Option.map_eq_some_iff.mp hw
    by_cases hswitch : ∃ term, e = .switch term
    · obtain ⟨term, rfl⟩ := hswitch
      exact h.switch hl hk
    · have hne : ∀ term, e ≠ .switch term := fun term he ↦ hswitch ⟨term, he⟩
      rw [attempt_eq hne] at hk
      obtain rfl := Option.some.inj hk
      refine h.away fun hcur ↦ ?_
      rw [Watched.mine_eq_true.mpr ⟨hcur, hne⟩] at hmine
      exact Bool.noConfusion hmine

theorem Linked.start (hb : Boots b m k₀) (hs : k₀.event b (.switch i) = some s) :
    Linked i (.start k₀) s := by
  have hl := (boots_cases hb).1
  have hshells : Shells k₀ := .boots hb
  obtain ⟨hkeyboard, -, -⟩ := boots_lines hb
  obtain ⟨hterm, hentered, hbound⟩ := hshells.switch_keyboard hl hs
  refine ⟨hshells, (hshells.switch hl hs).placed.2.keyBuffer, ?_, ?_, ?_⟩
  · exact (hshells.switch_lineOf hl hs).symm.trans (lineOf_current hterm.symm)
  · rw [hentered, hkeyboard]
    rfl
  · rw [hbound, hkeyboard]
    rfl

/-- As long as the flag and the bound do not mislead terminal `i`, and no terminal stores beyond
the screen or its key buffer, the programs of terminal `i` get from their reads what they would get
if there were no other terminal. So what they get is the same in two runs that agree on the keys,
the output and the reads of terminal `i`. -/
theorem reads_isolated {es es' : List Event} (hb : Boots b m k₀)
    (hg : ∀ w e, Visits (Watched.step b i) (.start k₀) es w e →
      Undisturbed i w e ∧ Contained w.kernel e)
    (hg' : ∀ w e, Visits (Watched.step b i) (.start k₀) es' w e →
      Undisturbed i w e ∧ Contained w.kernel e)
    (hown : eventsOf b i k₀ es = eventsOf b i k₀ es') :
    (∃ s, k₀.event b (.switch i) = some s ∧ answersOf b i k₀ es =
      aloneOutputs Kernel.here Kernel.answer s (eventsOf b i k₀ es)) ∧
    answersOf b i k₀ es = answersOf b i k₀ es' := by
  have hl := (boots_cases hb).1
  obtain ⟨s, hs⟩ := (Shells.boots hb).exists_switch hl i
  have hlinked := Linked.start hb hs
  have hunwinds := watched_unwinds hl i
  have hown' (fs : List Event) (h : ∀ w e, Visits (Watched.step b i) (.start k₀) fs w e →
      Undisturbed i w e ∧ Contained w.kernel e) :
      ∀ w e, Visits (Watched.step b i) (.start k₀) fs w e → Undisturbed i w e :=
    fun w e hv ↦ (h w e hv).1
  exact ⟨⟨s, hs, hunwinds.outputs_eq hlinked (hown' es hg)⟩,
    hunwinds.outputs_congr hlinked (hown' es hg) (hown' es' hg') hown⟩

section Elsewhere

variable {w : Watched} {es : List Event} {o : Own}

theorem step_elsewhere (hmine : Watched.mine i w e = false)
    (hk : w.kernel.attempt b e = some k') : Watched.step b i w e = some ⟨k', w.own⟩ := by
  rw [Watched.step, hk, if_neg (by simp [hmine])]
  rfl

theorem elsewhere (hmine : Watched.mine i w e = false) (hk : w.kernel.attempt b e = some k') :
    purge (Watched.step b i) (Watched.mine i) w (e :: es) =
      purge (Watched.step b i) (Watched.mine i) ⟨k', w.own⟩ es ∧
    outputs (Watched.step b i) (Watched.mine i) (fun w ↦ w.kernel.answer) w (e :: es) =
      outputs (Watched.step b i) (Watched.mine i) (fun w ↦ w.kernel.answer) ⟨k', w.own⟩ es := by
  simp [purge, outputs, step_elsewhere hmine hk, hmine]

theorem undisturbed_elsewhere (hmine : Watched.mine i w e = false)
    (hk : w.kernel.attempt b e = some k') (he : Contained w.kernel e)
    (h : ∀ v f, Visits (Watched.step b i) ⟨k', w.own⟩ es v f →
      Undisturbed i v f ∧ Contained v.kernel f) :
    ∀ v f, Visits (Watched.step b i) w (e :: es) v f →
      Undisturbed i v f ∧ Contained v.kernel f := by
  intro v f hv
  rcases visits_next (step_elsewhere hmine hk) hv with ⟨rfl, rfl⟩ | hv
  · refine ⟨fun hcur ↦ ?_, he⟩
    cases f with
    | switch term => trivial
    | _ =>
      rw [Watched.mine_eq_true.mpr ⟨hcur, by simp⟩] at hmine
      exact Bool.noConfusion hmine
  · exact h v f hv

theorem mine_switch : Watched.mine i w (.switch term) = false := by simp [Watched.mine]

theorem mine_away (h : w.kernel.termCur ≠ i) : Watched.mine i w e = false := by
  simp [Watched.mine, h]

theorem own_enter (h : w.kernel.termCur = i) :
    purge (Watched.step b i) (Watched.mine i) w (.key .enter :: es) =
      .key .enter :: purge (Watched.step b i) (Watched.mine i)
        ⟨w.kernel.here (.key .enter), true, 7⟩ es ∧
    outputs (Watched.step b i) (Watched.mine i) (fun w ↦ w.kernel.answer) w (.key .enter :: es) =
      outputs (Watched.step b i) (Watched.mine i) (fun w ↦ w.kernel.answer)
        ⟨w.kernel.here (.key .enter), true, 7⟩ es := by
  have hmine : Watched.mine i w (.key .enter) = true := by simp [Watched.mine, h]
  have hstep : Watched.step b i w (.key .enter) =
      some ⟨w.kernel.here (.key .enter), true, 7⟩ := by
    rw [Watched.step, if_pos hmine]
    rfl
  simp [purge, outputs, hstep, hmine, Kernel.answer]

theorem back_reading (h : Shells k) (hl : Loadable b.image shellCommand) (nbytes : ℤ) :
    purge (Watched.step b i) (Watched.mine i) ⟨k, o⟩ [.switch i, .read nbytes] = [.read nbytes] ∧
    ∃ r, outputs (Watched.step b i) (Watched.mine i) (fun w ↦ w.kernel.answer) ⟨k, o⟩
        [.switch i, .read nbytes] = [r] ∧ r.isSome = k.keyboard.enterPressed := by
  obtain ⟨k', hk⟩ := h.exists_switch hl i
  obtain ⟨hcur, hentered, -⟩ := h.switch_keyboard hl hk
  have hback : (Watched.mk k o).kernel.attempt b (.switch i) = some k' := hk
  have hread : Watched.mine i ⟨k', o⟩ (.read nbytes) = true := by simp [Watched.mine, hcur]
  refine ⟨?_, (k'.tryRead nbytes).2, ?_, ?_⟩
  · rw [(elsewhere mine_switch hback).1]
    simp [purge, Watched.step, Kernel.attempt, hread]
  · rw [(elsewhere mine_switch hback).2]
    simp [outputs, Watched.step, Kernel.attempt, hread, Kernel.answer]
  · rw [← hentered]
    cases hflag : k'.keyboard.enterPressed with
    | false =>
      rw [Kernel.tryRead, Kernel.terminalRead_waits hflag]
      rfl
    | true =>
      rw [Kernel.tryRead, Kernel.terminalRead, if_pos hflag]
      rfl

theorem back_undisturbed {nbytes : ℤ} (h : Shells k) (hl : Loadable b.image shellCommand)
    (hflag : k.keyboard.enterPressed = o.entered) :
    ∀ v f, Visits (Watched.step b i) ⟨k, o⟩ [.switch i, .read nbytes] v f →
      Undisturbed i v f ∧ Contained v.kernel f := by
  obtain ⟨k', hk⟩ := h.exists_switch hl i
  obtain ⟨-, hentered, -⟩ := h.switch_keyboard hl hk
  refine undisturbed_elsewhere mine_switch hk ⟨trivial, by rintro ⟨⟩⟩ fun v f hv ↦ ?_
  obtain ⟨rfl, rfl⟩ := visits_singleton hv
  exact ⟨fun _ ↦ hentered.trans hflag, trivial, by rintro ⟨⟩⟩

theorem back_told {nbytes : ℤ} (h : Shells k) (h' : Shells k')
    (hl : Loadable b.image shellCommand)
    (hflag : k.keyboard.enterPressed ≠ k'.keyboard.enterPressed) :
    outputs (Watched.step b i) (Watched.mine i) (fun w ↦ w.kernel.answer) ⟨k, o⟩
        [.switch i, .read nbytes] ≠
      outputs (Watched.step b i) (Watched.mine i) (fun w ↦ w.kernel.answer) ⟨k', o⟩
        [.switch i, .read nbytes] := by
  obtain ⟨-, r, hr, hsome⟩ := back_reading (i := i) (o := o) h hl nbytes
  obtain ⟨-, r', hr', hsome'⟩ := back_reading (i := i) (o := o) h' hl nbytes
  rw [hr, hr']
  intro he
  obtain ⟨rfl, -⟩ := List.cons.inj he
  exact hflag (hsome.symm.trans hsome')

end Elsewhere

section Sample

theorem Shells.second (h : Shells k) (hl : Loadable b.image shellCommand) :
    ∃ k₁, k.attempt b (.switch 1) = some k₁ ∧ Shells k₁ ∧ k₁.termCur ≠ 0 ∧
      k₁.keyboard.enterPressed = k.keyboard.enterPressed := by
  obtain ⟨k₁, hk⟩ := h.exists_switch hl 1
  obtain ⟨hcur, hentered, -⟩ := h.switch_keyboard hl hk
  refine ⟨k₁, hk, h.switch hl hk, ?_, hentered⟩
  rw [hcur]
  decide

theorem boots_entered (hb : Boots b m k) : k.keyboard.enterPressed = false := by
  rw [(boots_lines hb).1]
  rfl

theorem enterChar_entered {c : UInt8} :
    (k.enterChar c).keyboard.enterPressed = k.keyboard.enterPressed := by
  unfold Kernel.enterChar
  split_ifs <;> rfl

theorem tryRead_entered {nbytes : ℤ} : (k.tryRead nbytes).1.keyboard.enterPressed = false := by
  cases hflag : k.keyboard.enterPressed with
  | false =>
    rw [Kernel.tryRead, Kernel.terminalRead_waits hflag]
    exact hflag
  | true =>
    rw [Kernel.tryRead, Kernel.terminalRead, if_pos hflag]
    rfl

theorem reads_isolated_sample : ∃ k, Boots sampleBuild sampleMachine k ∧
    answersOf sampleBuild 0 k [.switch 1, .key (.char 97), .switch 0, .read 10] =
      answersOf sampleBuild 0 k [.switch 1, .switch 0, .read 10] := by
  obtain ⟨k, hb⟩ := sample_boots
  have hl := (boots_cases hb).1
  obtain ⟨k₁, hk₁, hs₁, hcur₁, hentered₁⟩ := (Shells.boots hb).second hl
  have hflag₁ := hentered₁.trans (boots_entered hb)
  have hs₂ : Shells (k₁.here (.key (.char 97))) := hs₁.quiet (here_local (S := ∅) _)
  have hflag₂ : (k₁.here (.key (.char 97))).keyboard.enterPressed = false :=
    enterChar_entered.trans hflag₁
  refine ⟨k, hb, (reads_isolated hb ?_ ?_ ?_).2⟩
  · refine undisturbed_elsewhere mine_switch hk₁ ⟨trivial, by rintro ⟨⟩⟩ ?_
    exact undisturbed_elsewhere (mine_away hcur₁) rfl ⟨trivial, by rintro ⟨⟩⟩
      (back_undisturbed hs₂ hl hflag₂)
  · exact undisturbed_elsewhere mine_switch hk₁ ⟨trivial, by rintro ⟨⟩⟩
      (back_undisturbed hs₁ hl hflag₁)
  · refine (elsewhere mine_switch hk₁).1.trans (.trans ?_ (elsewhere mine_switch hk₁).1.symm)
    refine (elsewhere (mine_away hcur₁) rfl).1.trans ?_
    exact (back_reading hs₂ hl 10).1.trans (back_reading hs₁ hl 10).1.symm

/-- An Enter pressed on the second terminal has a read of the first come back, and a
read on the second takes a line that was completed on the first. -/
theorem reads_not_isolated : ∃ k, Boots sampleBuild sampleMachine k ∧
    (eventsOf sampleBuild 0 k [.switch 1, .key .enter, .switch 0, .read 10] =
      eventsOf sampleBuild 0 k [.switch 1, .switch 0, .read 10] ∧
    answersOf sampleBuild 0 k [.switch 1, .key .enter, .switch 0, .read 10] ≠
      answersOf sampleBuild 0 k [.switch 1, .switch 0, .read 10]) ∧
    eventsOf sampleBuild 0 k [.key .enter, .switch 1, .read 10, .switch 0, .read 10] =
      eventsOf sampleBuild 0 k [.key .enter, .switch 1, .switch 0, .read 10] ∧
    answersOf sampleBuild 0 k [.key .enter, .switch 1, .read 10, .switch 0, .read 10] ≠
      answersOf sampleBuild 0 k [.key .enter, .switch 1, .switch 0, .read 10] := by
  obtain ⟨k, hb⟩ := sample_boots
  have hl := (boots_cases hb).1
  have hs : Shells k := .boots hb
  refine ⟨k, hb, ?_, ?_⟩
  · obtain ⟨k₁, hk₁, hs₁, hcur₁, hentered₁⟩ := hs.second hl
    have hs₂ : Shells (k₁.here (.key .enter)) := hs₁.quiet (here_local (S := ∅) _)
    have hflag : (k₁.here (.key .enter)).keyboard.enterPressed ≠ k₁.keyboard.enterPressed := by
      rw [hentered₁, boots_entered hb]
      exact Bool.noConfusion
    rw [eventsOf, eventsOf, answersOf, answersOf, (elsewhere mine_switch hk₁).1,
      (elsewhere mine_switch hk₁).1, (elsewhere mine_switch hk₁).2,
      (elsewhere mine_switch hk₁).2, (elsewhere (mine_away hcur₁) rfl).1,
      (elsewhere (mine_away hcur₁) rfl).2, (back_reading hs₁ hl 10).1]
    exact ⟨(back_reading hs₂ hl 10).1, back_told hs₂ hs₁ hl hflag⟩
  · have hs₀ : Shells (k.here (.key .enter)) := hs.quiet (here_local (S := ∅) _)
    obtain ⟨k₁, hk₁, hs₁, hcur₁, hentered₁⟩ := hs₀.second hl
    have hs₂ : Shells (k₁.here (.read 10)) := hs₁.quiet (here_local (S := ∅) _)
    have hflag : (k₁.here (.read 10)).keyboard.enterPressed ≠ k₁.keyboard.enterPressed := by
      have hdown : (k₁.here (.read 10)).keyboard.enterPressed = false := tryRead_entered
      rw [hdown, hentered₁]
      exact Bool.noConfusion
    have hcur : (Watched.start k).kernel.termCur = 0 := boots_termCur hb
    rw [eventsOf, eventsOf, answersOf, answersOf, (own_enter hcur).1, (own_enter hcur).1,
      (own_enter hcur).2, (own_enter hcur).2]
    have hk₁' : (Watched.mk ((Watched.start k).kernel.here (.key .enter)) ⟨true, 7⟩).kernel.attempt
        sampleBuild (.switch 1) = some k₁ := hk₁
    rw [(elsewhere mine_switch hk₁').1, (elsewhere mine_switch hk₁').1,
      (elsewhere mine_switch hk₁').2, (elsewhere mine_switch hk₁').2,
      (elsewhere (mine_away hcur₁) rfl).1, (elsewhere (mine_away hcur₁) rfl).2,
      (back_reading hs₁ hl 10).1]
    exact ⟨congrArg _ (back_reading hs₂ hl 10).1, back_told hs₂ hs₁ hl hflag⟩

end Sample

end ApollOS
