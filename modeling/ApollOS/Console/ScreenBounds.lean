import ApollOS.Console.Switching

namespace ApollOS

open Function Runs Console

variable {b : Build} {m : Machine} {c c' : Console} {k k' k₀ : Kernel} {e : Event} {es : List Event}

/-- The cursor is on the screen, and so is every byte that has been stored. -/
structure InText (c : Console) : Prop where
  cursor : c.OnScreen
  stored : ∀ a ∈ c.stored, a ∈ textMemory

theorem InText.writes (h : InText c) (hc : c'.OnScreen) (hw : WritesIn textMemory c c') :
    InText c' :=
  ⟨hc, fun a ha ↦ (hw.log a ha).elim (h.stored a) id⟩

theorem InText.putc (h : InText c) (x : UInt8) : InText (c.putc x) :=
  h.writes (h.cursor.putc x) (putc_writesIn h.cursor x)

theorem InText.puts (h : InText c) (s : List UInt8) : InText (c.puts s) :=
  h.writes (h.cursor.puts s) (puts_writesIn h.cursor s)

theorem onScreen_setMem (h : c.OnScreen) (mem : Memory) : { c with mem := mem }.OnScreen :=
  ⟨h.x_nonneg, h.x_lt, h.y_nonneg, h.y_lt⟩

theorem InText.setMem (h : InText c) (mem : Memory) : InText { c with mem := mem } :=
  ⟨onScreen_setMem h.cursor mem, h.stored⟩

def Terminal.OnScreen (t : Terminal) : Prop :=
  0 ≤ t.posX ∧ t.posX < numCols ∧ 0 ≤ t.posY ∧ t.posY < numRows

def SavedOnScreen (k : Kernel) : Prop := ∀ t, (k.terminal t).OnScreen

/-- The events that keep the cursor on the screen: an arrow does not leave by the
side it is at, and Backspace does not leave by the upper left corner. -/
def StaysOnScreen (k : Kernel) : Event → Prop
  | .key .left => k.console.screenX ≠ 0
  | .key .right => k.keyboard.rightBound ≤ k.console.screenX ∨ k.console.screenX + 1 < numCols
  | .key .backspace => k.keyboard.keyBufferPos.toNat = 0 ∨
      ¬ (k.console.screenX = 0 ∧ k.console.screenY = 0)
  | _ => True

/-- The events that store nowhere but on the screen and in the key buffer: besides, Backspace finds
the position in the buffer. -/
structure Contained (k : Kernel) (e : Event) : Prop where
  screen : StaysOnScreen k e
  erases : e = .key .backspace → k.keyboard.keyBufferPos.toNat ≤ keyBufferSize

instance (k : Kernel) (e : Event) : Decidable (StaysOnScreen k e) :=
  match e with
  | .key .left => inferInstanceAs (Decidable (k.console.screenX ≠ 0))
  | .key .right => inferInstanceAs (Decidable
      (k.keyboard.rightBound ≤ k.console.screenX ∨ k.console.screenX + 1 < numCols))
  | .key .backspace => inferInstanceAs (Decidable (k.keyboard.keyBufferPos.toNat = 0 ∨
      ¬ (k.console.screenX = 0 ∧ k.console.screenY = 0)))
  | .key (.char _) | .key .enter | .key .ctrlL | .output _ | .read _ | .switch _ => isTrue trivial

instance (k : Kernel) (e : Event) : Decidable (Contained k e) :=
  match e with
  | .key .backspace => decidable_of_iff
      (StaysOnScreen k (.key .backspace) ∧ k.keyboard.keyBufferPos.toNat ≤ keyBufferSize)
      ⟨fun ⟨h, h'⟩ ↦ ⟨h, fun _ ↦ h'⟩, fun h ↦ ⟨h.screen, h.erases rfl⟩⟩
  | .key .left | .key .right | .key (.char _) | .key .enter | .key .ctrlL | .output _ | .read _
  | .switch _ => decidable_of_iff (StaysOnScreen k _)
      ⟨fun h ↦ ⟨h, fun he ↦ by cases he⟩, Contained.screen⟩

theorem onScreen_lines (h : c.OnScreen) (ls : List (List UInt8)) :
    (ls.foldl Console.puts c).OnScreen := by
  induction ls generalizing c with
  | nil => exact h
  | cons s ls ih => exact ih (h.puts s)

theorem lines_writesIn (h : c.OnScreen) (ls : List (List UInt8)) :
    WritesIn textMemory c (ls.foldl Console.puts c) := by
  induction ls generalizing c with
  | nil => exact .refl
  | cons s ls ih => exact (puts_writesIn h s).trans (ih (h.puts s))

theorem onScreen_moved {x y : ℤ} : ((c.setScreenPos x y).updateCursorLoc x y).OnScreen ↔
    0 ≤ x ∧ x < numCols ∧ 0 ≤ y ∧ y < numRows :=
  ⟨fun ⟨hx, hx', hy, hy'⟩ ↦ ⟨hx, hx', hy, hy'⟩, fun ⟨hx, hx', hy, hy'⟩ ↦ ⟨hx, hx', hy, hy'⟩⟩

theorem onScreen_backspace_iff (h : c.OnScreen) :
    c.doBackspace.OnScreen ↔ ¬ (c.screenX = 0 ∧ c.screenY = 0) := by
  constructor
  · intro h' ⟨hx, hy⟩
    have hleft := h'.x_nonneg
    rw [doBackspace_screenX, if_neg (by omega), hx] at hleft
    exact absurd hleft (by decide)
  · exact h.doBackspace

theorem onScreen_pressKey_iff (h : k.console.OnScreen) (key : Key) :
    (k.pressKey key).console.OnScreen ↔ StaysOnScreen k (.key key) := by
  have ⟨hx, hx', hy, hy'⟩ := h
  cases key with
  | char c =>
    refine iff_of_true ?_ trivial
    rw [Kernel.pressKey, Kernel.enterChar]
    split_ifs
    · exact h
    · exact h.putc c
    · exact h
  | backspace =>
    rw [Kernel.pressKey, Kernel.handleBackpace, StaysOnScreen]
    by_cases hpos : k.keyboard.keyBufferPos > 0
    · rw [if_pos hpos]
      have hne : k.keyboard.keyBufferPos.toNat ≠ 0 := (Kernel.pos_pos_iff.mp hpos).ne'
      exact (onScreen_backspace_iff h).trans (or_iff_right hne).symm
    · rw [if_neg hpos]
      refine iff_of_true h (.inl ?_)
      rw [Kernel.pos_pos_iff] at hpos
      omega
  | enter => exact iff_of_true h.doEnter trivial
  | ctrlL => exact iff_of_true clear_onScreen trivial
  | left =>
    rw [Kernel.pressKey, Kernel.moveCursorLeft, StaysOnScreen]
    split_ifs with hseven
    · refine onScreen_moved.trans ?_
      simp only [numCols, numRows] at *
      omega
    · refine iff_of_true h ?_
      omega
  | right =>
    rw [Kernel.pressKey, Kernel.moveCursorRight, StaysOnScreen]
    split_ifs with hright
    · refine onScreen_moved.trans ?_
      simp only [numCols, numRows] at *
      omega
    · exact iff_of_true h (.inl (not_lt.mp hright))

theorem pressKey_writesIn {key : Key} (h : k.console.OnScreen)
    (h' : (k.pressKey key).console.OnScreen) :
    WritesIn textMemory k.console (k.pressKey key).console := by
  cases key with
  | char c =>
    rw [Kernel.pressKey, Kernel.enterChar]
    split_ifs
    · exact .refl
    · exact putc_writesIn h c
    · exact .refl
  | backspace =>
    rw [Kernel.pressKey, Kernel.handleBackpace] at h' ⊢
    split_ifs at h' ⊢
    · exact doBackspace_writesIn h'
    · exact .refl
  | enter => exact doEnter_writesIn
  | ctrlL => exact clear_writesIn
  | left =>
    rw [Kernel.pressKey, Kernel.moveCursorLeft]
    split_ifs
    · exact WritesIn.refl.congr rfl rfl
    · exact .refl
  | right =>
    rw [Kernel.pressKey, Kernel.moveCursorRight]
    split_ifs
    · exact WritesIn.refl.congr rfl rfl
    · exact .refl

section Begun

variable {term : Fin maxTerminals}

theorem onScreen_shown (h : (k.terminal term).OnScreen) :
    ((k.setTerminal term fun t ↦ { t with init := true }).showTerminal term).console.OnScreen := by
  have hterm : ((k.setTerminal term fun t ↦ { t with init := true }).terminal term).OnScreen := by
    simpa [Kernel.setTerminal, Terminal.OnScreen] using h
  obtain ⟨hx, hx', hy, hy'⟩ := hterm
  exact ⟨hx, hx', hy, hy'⟩

theorem onScreen_begun (h : (k.terminal term).OnScreen) : (k.begun term).console.OnScreen := by
  simp only [Kernel.begun, Kernel.printBanner]
  exact onScreen_lines (onScreen_shown h) banner

theorem begun_writesIn (h : (k.terminal term).OnScreen) : WritesIn textMemory
    ((k.setTerminal term fun t ↦ { t with init := true }).showTerminal term).console
    (k.begun term).console := by
  simp only [Kernel.begun, Kernel.printBanner]
  exact lines_writesIn (onScreen_shown h) banner

end Begun

namespace InText

theorem pressKey_iff (h : InText k.console) (key : Key) :
    InText (k.pressKey key).console ↔ StaysOnScreen k (.key key) := by
  have hiff := onScreen_pressKey_iff h.cursor key
  constructor
  · intro h'
    exact hiff.mp h'.cursor
  · intro hs
    exact h.writes (hiff.mpr hs) (pressKey_writesIn h.cursor (hiff.mpr hs))

theorem showTerminal {term : Fin maxTerminals} (ht : (k.terminal term).OnScreen)
    (hstored : ∀ a ∈ k.console.stored, a ∈ textMemory) :
    InText (k.showTerminal term).console := by
  obtain ⟨hx, hx', hy, hy'⟩ := ht
  exact ⟨⟨hx, hx', hy, hy'⟩, hstored⟩

theorem begun {term : Fin maxTerminals} (ht : (k.terminal term).OnScreen)
    (hstored : ∀ a ∈ k.console.stored, a ∈ textMemory) : InText (k.begun term).console :=
  ⟨onScreen_begun ht, fun a ha ↦ ((begun_writesIn ht).log a ha).elim (hstored a) id⟩

theorem switch (h : InText k.console) (hs : SavedOnScreen k) {term : Fin maxTerminals}
    (hk : k.event b (.switch term) = some k') : InText k'.console := by
  cases switched_of_event hk with
  | same => exact h
  | refused s => exact h.puts s
  | loaded hne =>
    refine showTerminal (k := { k.leftFor term with esp0 := _, paging := _ }) ?_ h.stored
    exact (Exchanged.leftFor_terminal term hne).symm ▸ hs term
  | failed s hne =>
    have hterm := (Exchanged.leftFor_terminal term hne).symm ▸ hs term
    exact (begun hterm h.stored).puts s
  | started p mem hne =>
    have hterm := (Exchanged.leftFor_terminal term hne).symm ▸ hs term
    exact (begun hterm h.stored).setMem mem

theorem event_iff (h : InText k.console) (hs : SavedOnScreen k) (hk : k.event b e = some k') :
    InText k'.console ↔ StaysOnScreen k e := by
  cases e with
  | key key =>
    obtain rfl := Option.some.inj hk
    exact h.pressKey_iff key
  | output c =>
    obtain rfl := Option.some.inj hk
    exact iff_of_true (h.putc c) trivial
  | read nbytes =>
    obtain ⟨⟨k₁, bytes⟩, hread, rfl⟩ := Option.map_eq_some_iff.mp hk
    unfold Kernel.terminalRead at hread
    split_ifs at hread
    obtain ⟨rfl, -⟩ := Prod.mk.inj (Option.some.inj hread)
    exact iff_of_true h trivial
  | switch term => exact iff_of_true (h.switch hs hk) trivial

end InText

theorem SavedOnScreen.event (hs : SavedOnScreen k) (h : InText k.console)
    (hk : k.event b e = some k') : SavedOnScreen k' := by
  intro t
  rcases place_of_event hk t with hplace | hplace
  · have hx : (k'.terminal t).posX = (k.terminal t).posX := congrArg (fun place ↦ place.2.1) hplace
    have hy : (k'.terminal t).posY = (k.terminal t).posY := congrArg (fun place ↦ place.2.2) hplace
    rw [Terminal.OnScreen, hx, hy]
    exact hs t
  · have hx : (k'.terminal t).posX = k.console.screenX := congrArg (fun place ↦ place.2.1) hplace
    have hy : (k'.terminal t).posY = k.console.screenY := congrArg (fun place ↦ place.2.2) hplace
    rw [Terminal.OnScreen, hx, hy]
    exact ⟨h.cursor.x_nonneg, h.cursor.x_lt, h.cursor.y_nonneg, h.cursor.y_lt⟩

theorem boots_inText (hb : Boots b m k) : InText k.console ∧ SavedOnScreen k := by
  constructor
  · obtain ⟨-, mem, rfl⟩ := boots_cases hb
    have hclear : InText (Console.clear ⟨m.mem, 0, 0, 0, []⟩) := by
      refine ⟨clear_onScreen, fun a ha ↦ ?_⟩
      rcases clear_writesIn.log a ha with ha | ha
      · cases ha
      · exact ha
    have hhome : (((m.initial b).resetTerminals b).terminal 0).OnScreen :=
      show (0 : ℤ) ≤ 0 ∧ (0 : ℤ) < numCols ∧ (0 : ℤ) ≤ 0 ∧ (0 : ℤ) < numRows by decide
    have hready : InText (m.ready b).console := InText.begun hhome (hclear.puts m.messages).stored
    exact hready.setMem mem
  · obtain ⟨-, -, hsaved⟩ := boots_lines hb
    intro t
    have hx : (k.terminal t).posX = 0 := congrArg Saved.posX (hsaved t)
    have hy : (k.terminal t).posY = 0 := congrArg Saved.posY (hsaved t)
    rw [Terminal.OnScreen, hx, hy]
    decide

/-- In a run the cursor and every byte that is stored are on the screen all along
exactly as long as every event is one of those that stay there. -/
theorem inText_iff (hb : Boots b m k₀) (hr : run (Kernel.event b) k₀ es = some k) :
    (∀ u, Passes (Kernel.event b) k₀ es u → InText u.console) ↔
      ∀ u e, Visits (Kernel.event b) k₀ es u e → StaysOnScreen u e := by
  obtain ⟨h, hs⟩ := boots_inText hb
  exact forall_passes_iff (P := fun k ↦ InText k.console) (J := SavedOnScreen)
    (fun k e k' hs h hk ↦ hs.event h hk) (fun k e k' hs h hk ↦ h.event_iff hs hk) h hs hr

section Sample

def arrowsOnLine : List Event := [.output 10, .output 97, .key .left, .key .right]

def arrowAtLeftEdge : List Event := [.output 10, .key .left]

theorem arrowAtLeftEdge_run (k : Kernel) : ∃ k', run (Kernel.event b) k arrowAtLeftEdge = some k' ∧
    k'.console.screenX = -1 := by
  have hx : (k.console.putc 10).screenX = 0 := by
    rw [putc_screenX, if_pos (.inl rfl)]
  refine ⟨_, run_cons_eq_some.mpr ⟨_, rfl, run_cons_eq_some.mpr ⟨_, rfl, rfl⟩⟩, ?_⟩
  simp [Kernel.pressKey, Kernel.moveCursorLeft, hx, setScreenPos, updateCursorLoc]

/-- The cursor goes back over a character on a new line, and forward again. -/
theorem inText_iff_sample : ∃ k₀ k, Boots sampleBuild sampleMachine k₀ ∧
    run (Kernel.event sampleBuild) k₀ arrowsOnLine = some k ∧
    ∀ u, Passes (Kernel.event sampleBuild) k₀ arrowsOnLine u → InText u.console := by
  obtain ⟨k₀, hb⟩ := sample_boots
  let k₁ : Kernel := { k₀ with console := k₀.console.putc 10 }
  let k₂ : Kernel := { k₁ with console := k₁.console.putc 97 }
  have hx₁ : k₁.console.screenX = 0 := by rw [putc_screenX, if_pos (.inl rfl)]
  have hx₂ : k₂.console.screenX = 1 := by
    rw [putc_screenX, hx₁]
    rfl
  have hline : k₀.event sampleBuild (.output 10) = some k₁ := rfl
  have hchar : k₁.event sampleBuild (.output 97) = some k₂ := rfl
  have hleft : k₂.event sampleBuild (.key .left) = some k₂.moveCursorLeft := rfl
  have hright : k₂.moveCursorLeft.event sampleBuild (.key .right) =
      some k₂.moveCursorLeft.moveCursorRight := rfl
  have hback : k₂.moveCursorLeft.console.screenX = 0 := by
    simp [Kernel.moveCursorLeft, hx₂, setScreenPos, updateCursorLoc]
  have hr : run (Kernel.event sampleBuild) k₀ arrowsOnLine =
      some k₂.moveCursorLeft.moveCursorRight := by
    rw [arrowsOnLine, run_cons_of hline, run_cons_of hchar, run_cons_of hleft, run_cons_of hright]
    rfl
  refine ⟨k₀, _, hb, hr, (inText_iff hb hr).mpr fun u e hv ↦ ?_⟩
  rcases visits_next hline hv with ⟨rfl, rfl⟩ | hv
  · trivial
  rcases visits_next hchar hv with ⟨rfl, rfl⟩ | hv
  · trivial
  rcases visits_next hleft hv with ⟨rfl, rfl⟩ | hv
  · exact hx₂.trans_ne (by decide)
  · obtain ⟨rfl, rfl⟩ := visits_singleton hv
    exact .inr (by rw [hback]; decide)

end Sample

/-- The cursor leaves the screen. -/
theorem inText_lost : ∃ k₀ k, Boots sampleBuild sampleMachine k₀ ∧
    run (Kernel.event sampleBuild) k₀ arrowAtLeftEdge = some k ∧ k.console.screenX = -1 ∧
    ¬ InText k.console := by
  obtain ⟨k₀, hb⟩ := sample_boots
  obtain ⟨k, hr, hx⟩ := arrowAtLeftEdge_run (b := sampleBuild) k₀
  refine ⟨k₀, k, hb, hr, hx, fun h ↦ ?_⟩
  have hleft := h.cursor.x_nonneg
  rw [hx] at hleft
  exact absurd hleft (by decide)

end ApollOS
