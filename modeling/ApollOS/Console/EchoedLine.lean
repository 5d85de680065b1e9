import ApollOS.Console.KeyBuffer
import ApollOS.Console.TextPage
import ApollOS.Process.Boot

namespace ApollOS

open Function Runs

variable {c : Console} {k : Kernel} {b : UInt8} {i prompt : ℤ}

/-- The characters of the screen in the order of reading. -/
def cellAt (i : ℤ) : ℤ := video + 2 * i

namespace Console

def cursor (c : Console) : ℤ := numCols * c.screenY + c.screenX

def scrolls (c : Console) (b : UInt8) : ℕ :=
  if c.screenY = numRows - 1 ∧ (b = 10 ∨ b = 13 ∨ c.screenX + 1 ≥ numCols) then 1 else 0

theorem doEnter_mem {a : ℤ} :
    c.doEnter.mem a = if c.screenY = numRows - 1 then c.scroll.mem a else c.mem a := by
  by_cases h : c.screenY = numRows - 1
  · simp only [doEnter, if_pos h, updateCursorLoc]
  · simp only [doEnter, if_neg h, updateCursorLoc]

theorem putc_cursor_next (h : c.OnScreen) (hb : ¬ (b = 10 ∨ b = 13)) :
    (c.putc b).cursor = c.cursor + 1 - numCols * c.scrolls b := by
  obtain ⟨hx, hx', hy, hy'⟩ := h
  obtain ⟨hlf, hcr⟩ := not_or.mp hb
  simp only [cursor, scrolls, putc_screenX, putc_screenY, hlf, hcr, false_or, numCols, numRows] at *
  split_ifs <;> omega

theorem putc_cell (hb : ¬ (b = 10 ∨ b = 13)) (hi : 0 ≤ i)
    (hi' : i + numCols * c.scrolls b < numCols * numRows) :
    (c.putc b).mem (cellAt i) = if i + numCols * c.scrolls b = c.cursor then b
      else c.mem (cellAt (i + numCols * c.scrolls b)) := by
  have htyped (j : ℤ) : (c.typed b).mem (cellAt j) =
      if j = c.cursor then b else c.mem (cellAt j) := by
    have hmem : (c.typed b).mem = update c.mem (cellAt c.cursor) b := rfl
    by_cases hj : j = c.cursor
    · subst hj
      rw [hmem, update_self, if_pos rfl]
    · rw [hmem, if_neg hj, update_of_ne]
      simp only [cellAt]
      omega
  obtain ⟨hlf, hcr⟩ := not_or.mp hb
  rw [putc_eq, if_neg hb]
  by_cases hfull : c.screenX + 1 ≥ (numCols : ℤ)
  · rw [if_pos hfull, doEnter_mem]
    by_cases hlast : c.screenY = numRows - 1
    · have hone : c.scrolls b = 1 := if_pos ⟨hlast, .inr (.inr hfull)⟩
      have hup : cellAt i + 2 * numCols = cellAt (i + numCols * (1 : ℕ)) := by
        simp only [cellAt, numCols]
        omega
      rw [hone] at hi' ⊢
      rw [if_pos (show (c.typed b).screenY = numRows - 1 from hlast), scroll_mem, if_pos, if_pos,
        hup, htyped]
      · simp only [cellAt, cellAddr, video, numCols, numRows] at *
        omega
      · simp only [cellAt, cellAddr, video, numCols, numRows] at *
        omega
    · have hzero : c.scrolls b = 0 := if_neg fun h ↦ hlast h.1
      rw [if_neg (show (c.typed b).screenY ≠ numRows - 1 from hlast), htyped, hzero]
      simp only [Nat.cast_zero, mul_zero, add_zero]
  · have hzero : c.scrolls b = 0 := by
      refine if_neg fun h ↦ ?_
      rcases h.2 with h | h | h
      · exact hlf h
      · exact hcr h
      · exact hfull h
    rw [if_neg hfull, hzero]
    simp only [Nat.cast_zero, mul_zero, add_zero]
    exact htyped i

theorem doBackspace_cursor : c.doBackspace.cursor =
    if c.screenX = 0 ∧ c.screenY > 0 then c.cursor - 2 else c.cursor - 1 := by
  simp only [cursor, doBackspace_screenX, doBackspace_screenY, numCols]
  split_ifs <;> omega

theorem doBackspace_cell : c.doBackspace.mem (cellAt i) =
    if i = c.doBackspace.cursor then 0 else c.mem (cellAt i) := by
  have hmem : c.doBackspace.mem = update c.mem (cellAt c.doBackspace.cursor) 0 := by
    by_cases h : c.screenX = 0 ∧ c.screenY > 0
    · simp only [doBackspace, if_pos h, setScreenPos, updateCursorLoc, store_mem]
      rfl
    · simp only [doBackspace, if_neg h, updateCursorLoc, store_mem]
      rfl
  by_cases hi : i = c.doBackspace.cursor
  · rw [hmem, if_pos hi, hi, update_self]
  · rw [hmem, if_neg hi, update_of_ne]
    simp only [cellAt]
    omega

end Console

namespace Kernel

theorem enterChar_console (h : k.keyboard.keyBufferPos.toNat < keyBufferSize) (hb : b ≠ 0) :
    (k.enterChar b).console = k.console.putc b := by
  rw [enterChar, if_pos (pos_lt_iff.mpr h), if_neg hb]
  rfl

theorem handleBackpace_console (h : 0 < k.keyboard.keyBufferPos.toNat) :
    k.handleBackpace.console = k.console.doBackspace := by
  rw [handleBackpace, if_pos (pos_pos_iff.mpr h)]
  rfl

end Kernel

/-- What is typed into a line: a printable character, or Backspace. -/
inductive Keystroke
  | char (c : UInt8) (printable : 32 ≤ c ∧ c ≤ 126)
  | backspace

/-- A kernel while a line is typed, with a count of the rows the screen has moved up. -/
structure Typing where
  kernel : Kernel
  scrolled : ℕ

namespace Typing

def pos (s : Typing) : ℕ := s.kernel.keyboard.keyBufferPos.toNat

def press (s : Typing) (stroke : Keystroke) : Option Typing :=
  match stroke with
  | .char c _ =>
    let rows := if s.pos < keyBufferSize then s.kernel.console.scrolls c else 0
    some ⟨s.kernel.pressKey (.char c), s.scrolled + rows⟩
  | .backspace => some ⟨s.kernel.pressKey .backspace, s.scrolled⟩

/-- Where the prompt is now, if it was at that cell when the line was begun. -/
def home (prompt : ℤ) (s : Typing) : ℤ := prompt - numCols * s.scrolled

/-- What stands on the screen from the prompt up to the cursor is the line. -/
structure Echoes (prompt : ℤ) (s : Typing) : Prop where
  home_nonneg : 0 ≤ s.home prompt
  cursor : s.kernel.console.cursor = s.home prompt + s.pos
  spells : ∀ j < s.pos, s.kernel.console.mem (cellAt (s.home prompt + j)) = s.kernel.keys.charAt j

/-- There is no character in the line, or the cursor is not at the start of a row. -/
def InRow (s : Typing) : Prop := s.pos = 0 ∨ s.kernel.console.screenX ≠ 0

/-- The cell of the last character of `s` shows nothing in `s'`. -/
def Erased (prompt : ℤ) (s s' : Typing) : Prop :=
  0 < s.pos → s'.kernel.console.mem (cellAt (s.home prompt + (s.pos - 1 : ℕ))) = 0

structure Sane (s : Typing) : Prop where
  onScreen : s.kernel.console.OnScreen
  pos_le : s.pos ≤ keyBufferSize

variable {s s' : Typing} {stroke : Keystroke} {strokes : List Keystroke}

theorem exists_press (s : Typing) (stroke : Keystroke) : ∃ s', s.press stroke = some s' := by
  cases stroke <;> exact ⟨_, rfl⟩

theorem press_full {printable : 32 ≤ b ∧ b ≤ 126} (h : keyBufferSize ≤ s.pos) :
    s.press (.char b printable) = some s := by
  have hkey : s.kernel.pressKey (.char b) = s.kernel := Kernel.enterChar_full h
  simp only [press, hkey, if_neg (Nat.not_lt.mpr h), Nat.add_zero]

theorem printable_ne (h : 32 ≤ b ∧ b ≤ 126) : b ≠ 0 ∧ ¬ (b = 10 ∨ b = 13) := by
  have hle := UInt8.le_iff_toNat_le.mp h.1
  refine ⟨?_, ?_⟩
  · rintro rfl
    exact absurd hle (by decide)
  · rintro (rfl | rfl)
    · exact absurd hle (by decide)
    · exact absurd hle (by decide)

theorem press_char {printable : 32 ≤ b ∧ b ≤ 126} (hlt : s.pos < keyBufferSize)
    (hs : s.press (.char b printable) = some s') :
    s'.pos = s.pos + 1 ∧ s'.kernel.keys = s.kernel.keys.put s.pos b ∧
      s'.kernel.console = s.kernel.console.putc b ∧
      s'.scrolled = s.scrolled + s.kernel.console.scrolls b := by
  obtain rfl := Option.some.inj hs
  have hne := (printable_ne printable).1
  obtain ⟨hkeys, hpos, -⟩ := Kernel.enterChar_stored (k := s.kernel) hlt hne
  exact ⟨hpos, hkeys, Kernel.enterChar_console hlt hne, by rw [if_pos hlt]⟩

theorem press_empty (h : s.pos = 0) : s.press .backspace = some s := by
  have hkey : s.kernel.pressKey .backspace = s.kernel := Kernel.handleBackpace_zero h
  simp only [press, hkey]

theorem press_backspace (hpos : 0 < s.pos) (hs : s.press .backspace = some s') :
    s'.pos = s.pos - 1 ∧ s'.kernel.keys = s.kernel.keys.put (s.pos - 1) 0 ∧
      s'.kernel.console = s.kernel.console.doBackspace ∧ s'.scrolled = s.scrolled := by
  obtain rfl := Option.some.inj hs
  obtain ⟨hkeys, hprev, -⟩ := Kernel.handleBackpace_erased (k := s.kernel) hpos
  exact ⟨hprev, hkeys, Kernel.handleBackpace_console hpos, rfl⟩

theorem Echoes.cursor_pos (h : s.Echoes prompt) (hpos : 0 < s.pos) :
    ¬ (s.kernel.console.screenX = 0 ∧ s.kernel.console.screenY = 0) := by
  rintro ⟨hx, hy⟩
  have hcursor := h.cursor
  have hhome := h.home_nonneg
  rw [Console.cursor, hx, hy] at hcursor
  omega

theorem Sane.press (h : s.Sane) (he : s.Echoes prompt) (hs : s.press stroke = some s') :
    s'.Sane := by
  cases stroke with
  | char c printable =>
    rcases Nat.lt_or_ge s.pos keyBufferSize with hlt | hfull
    · obtain ⟨hpos, -, hconsole, -⟩ := press_char hlt hs
      exact ⟨hconsole ▸ h.onScreen.putc c, hpos ▸ hlt⟩
    · rw [press_full hfull] at hs
      exact Option.some.inj hs ▸ h
  | backspace =>
    rcases Nat.eq_zero_or_pos s.pos with hzero | hpos
    · rw [press_empty hzero] at hs
      exact Option.some.inj hs ▸ h
    · obtain ⟨hprev, -, hconsole, -⟩ := press_backspace hpos hs
      refine ⟨hconsole ▸ h.onScreen.doBackspace (he.cursor_pos hpos), ?_⟩
      rw [hprev]
      exact (Nat.sub_le _ _).trans h.pos_le

theorem Sane.cursor_lt (h : s.Sane) : s.kernel.console.cursor < numCols * numRows := by
  obtain ⟨hx, hx', hy, hy'⟩ := h.onScreen
  simp only [Console.cursor, numCols, numRows] at *
  omega

namespace Echoes

theorem char {printable : 32 ≤ b ∧ b ≤ 126} (h : s.Echoes prompt) (hsane : s.Sane)
    (hs : s.press (.char b printable) = some s') : s'.Echoes prompt := by
  rcases Nat.lt_or_ge s.pos keyBufferSize with hlt | hfull
  · obtain ⟨hpos, hkeys, hconsole, hscrolled⟩ := press_char hlt hs
    have hbreak := (printable_ne printable).2
    have hhome : s'.home prompt = s.home prompt - numCols * s.kernel.console.scrolls b := by
      rw [home, home, hscrolled, Nat.cast_add, mul_add, sub_add_eq_sub_sub]
    have hcursor := h.cursor
    have hhome' : 0 ≤ s'.home prompt := by
      have hnonneg := h.home_nonneg
      have hshort : s.pos < 128 := hlt
      obtain ⟨hx, hx', hy, hy'⟩ := hsane.onScreen
      obtain ⟨hlf, hcr⟩ := not_or.mp hbreak
      rw [hhome]
      simp only [Console.scrolls, Console.cursor, hlf, hcr, false_or, numCols, numRows] at *
      split_ifs <;> omega
    refine ⟨hhome', ?_, fun j hj ↦ ?_⟩
    · rw [hconsole, Console.putc_cursor_next hsane.onScreen hbreak, hcursor, hhome, hpos,
        Nat.cast_add]
      omega
    · rw [hpos] at hj
      have hcell : s'.home prompt + j + numCols * s.kernel.console.scrolls b =
          s.home prompt + j := by
        rw [hhome]
        omega
      have hend := hsane.cursor_lt
      rw [hconsole, hkeys, Console.putc_cell hbreak, hcell, hcursor, KeyBuffer.charAt_put hlt]
      · by_cases hlast : j = s.pos
        · subst hlast
          rw [if_pos rfl, if_pos rfl]
        · rw [if_neg hlast, if_neg (by omega)]
          exact h.spells j (by omega)
      · omega
      · rw [hcell]
        omega
  · rw [press_full hfull] at hs
    exact Option.some.inj hs ▸ h

theorem backspace_iff (h : s.Echoes prompt) (hsane : s.Sane)
    (hs : s.press .backspace = some s') : s'.Echoes prompt ↔ s.InRow := by
  rcases Nat.eq_zero_or_pos s.pos with hzero | hpos
  · rw [press_empty hzero] at hs
    exact iff_of_true (Option.some.inj hs ▸ h) (.inl hzero)
  obtain ⟨hprev, hkeys, hconsole, hscrolled⟩ := press_backspace hpos hs
  have hhome : s'.home prompt = s.home prompt := by rw [home, home, hscrolled]
  have hcursor := h.cursor
  have hback := Console.doBackspace_cursor (c := s.kernel.console)
  have hy := hsane.onScreen.y_nonneg
  constructor
  · intro h'
    refine .inr fun hx ↦ ?_
    have hcursor' := h'.cursor
    have hcorner := h.cursor_pos hpos
    rw [hconsole, hback, if_pos ⟨hx, by omega⟩, hhome, hprev] at hcursor'
    omega
  · intro hrow
    have hx := hrow.resolve_left hpos.ne'
    rw [if_neg fun hstart ↦ hx hstart.1] at hback
    refine ⟨hhome ▸ h.home_nonneg, ?_, fun j hj ↦ ?_⟩
    · rw [hconsole, hback, hhome, hprev]
      omega
    · rw [hprev] at hj
      have hle := hsane.pos_le
      rw [hconsole, hkeys, hhome, Console.doBackspace_cell, KeyBuffer.charAt_put (by omega),
        if_neg (by omega), if_neg (by omega)]
      exact h.spells j (by omega)

/-- Within a row Backspace erases the cell of the character it takes from the line. -/
theorem erased (h : s.Echoes prompt) (hrow : s.InRow) (hs : s.press .backspace = some s') :
    s.Erased prompt s' := by
  intro hpos
  have hx := hrow.resolve_left hpos.ne'
  have hcursor := h.cursor
  obtain ⟨-, -, hconsole, -⟩ := press_backspace hpos hs
  rw [hconsole, Console.doBackspace_cell, if_pos]
  rw [Console.doBackspace_cursor, if_neg fun hstart ↦ hx hstart.1]
  omega

end Echoes

/-- What is typed stands on the screen all along, and every Backspace erases the character
it takes from the line, exactly as long as no Backspace is pressed at the start of a row. -/
theorem echoes_iff (hon : k.console.OnScreen) (hpos : k.keyboard.keyBufferPos = 0)
    (strokes : List Keystroke) :
    ((∀ u, Passes press ⟨k, 0⟩ strokes u → u.Echoes k.console.cursor) ∧
      ∀ u v, Visits press ⟨k, 0⟩ strokes u .backspace → u.press .backspace = some v →
        u.Erased k.console.cursor v) ↔
    ∀ u, Visits press ⟨k, 0⟩ strokes u .backspace → u.InRow := by
  have hzero : (⟨k, 0⟩ : Typing).pos = 0 := congrArg UInt32.toNat hpos
  have hhome : (⟨k, 0⟩ : Typing).home k.console.cursor = k.console.cursor := by
    simp only [home, Nat.cast_zero, mul_zero, sub_zero]
  have hstart : (⟨k, 0⟩ : Typing).Echoes k.console.cursor := by
    refine ⟨?_, ?_, fun j hj ↦ absurd hj (by omega)⟩
    · have hx := hon.x_nonneg
      have hy := hon.y_nonneg
      rw [hhome, Console.cursor, numCols]
      omega
    · rw [hhome, hzero, Nat.cast_zero, add_zero]
  have hsane : (⟨k, 0⟩ : Typing).Sane := ⟨hon, by omega⟩
  obtain ⟨t, hr⟩ := exists_run exists_press ⟨k, 0⟩ strokes
  have hiff := forall_passes_iff (G := fun u stroke ↦ stroke = .backspace → u.InRow)
    (fun u stroke v hs he hp ↦ hs.press he hp) (fun u stroke v hs he hp ↦ ?_) hstart hsane hr
  · constructor
    · rintro ⟨hall, -⟩ u hv
      exact hiff.mp hall u _ hv rfl
    · intro hrows
      have hall := hiff.mpr fun u stroke hv (he : stroke = .backspace) ↦ hrows u (he ▸ hv)
      exact ⟨hall, fun u v hv huv ↦ (hall u hv.passes).erased (hrows u hv) huv⟩
  · cases stroke with
    | char c printable =>
      refine iff_of_true (he.char hs hp) ?_
      rintro ⟨⟩
    | backspace =>
      rw [he.backspace_iff hs hp]
      exact ⟨fun h _ ↦ h, fun h ↦ h rfl⟩

section Sample

/-- The prompt has come to the last column of a row. -/
def atRowEnd : Kernel :=
  { sampleMachine.initial sampleBuild with console := ⟨fun _ ↦ 0, 79, 5, 0, []⟩ }

theorem atRowEnd_onScreen : atRowEnd.console.OnScreen :=
  ⟨by decide, by decide, by decide, by decide⟩

def overRowEnd : List Keystroke := [.char 97 (by decide), .backspace]

/-- A Backspace at the start of a row goes one cell too far: the character that ended the
row above stays. -/
theorem row_end_not_erased : ∃ u v, run press ⟨atRowEnd, 0⟩ overRowEnd = some v ∧
    Visits press ⟨atRowEnd, 0⟩ overRowEnd u .backspace ∧ u.press .backspace = some v ∧
    v.pos = 0 ∧ v.kernel.console.screenX = 78 ∧
    v.kernel.console.mem (cellAt atRowEnd.console.cursor) = 97 ∧
    ¬ v.Echoes atRowEnd.console.cursor ∧ ¬ u.Erased atRowEnd.console.cursor v := by
  obtain ⟨u, hu⟩ := exists_press ⟨atRowEnd, 0⟩ (.char 97 (by decide))
  obtain ⟨v, hv⟩ := exists_press u .backspace
  have hr : run press ⟨atRowEnd, 0⟩ overRowEnd = some v :=
    run_cons_eq_some.mpr ⟨u, hu, run_cons_eq_some.mpr ⟨v, hv, rfl⟩⟩
  have hvisit : Visits press ⟨atRowEnd, 0⟩ overRowEnd u .backspace := .later hu .here
  obtain rfl := Option.some.inj hu
  obtain rfl := Option.some.inj hv
  refine ⟨_, _, hr, hvisit, rfl, rfl, rfl, by decide, fun h ↦ ?_, fun h ↦ ?_⟩
  · exact absurd h.cursor (by decide)
  · exact absurd (h (by decide)) (by decide)

/-- A line that goes over the end of the row, with a typing error in it. -/
def correctedLine : List Keystroke :=
  [.char 97 (by decide), .char 98 (by decide), .backspace, .char 99 (by decide)]

theorem echoes_iff_sample : ∃ u v w, run press ⟨atRowEnd, 0⟩ correctedLine = some w ∧
    w.Echoes atRowEnd.console.cursor ∧ w.pos = 2 ∧ w.kernel.console.screenY = 6 ∧
    Visits press ⟨atRowEnd, 0⟩ correctedLine u .backspace ∧ u.press .backspace = some v ∧
    u.Erased atRowEnd.console.cursor v := by
  obtain ⟨r, hr⟩ := exists_press ⟨atRowEnd, 0⟩ (.char 97 (by decide))
  obtain ⟨u, hu⟩ := exists_press r (.char 98 (by decide))
  obtain ⟨v, hv⟩ := exists_press u .backspace
  obtain ⟨w, hw⟩ := exists_press v (.char 99 (by decide))
  have hrun : run press ⟨atRowEnd, 0⟩ correctedLine = some w := by
    rw [correctedLine, run_cons_of hr, run_cons_of hu, run_cons_of hv, run_cons_of hw]
    rfl
  have hrow : u.InRow := by
    obtain rfl := Option.some.inj hr
    obtain rfl := Option.some.inj hu
    exact .inr (by decide)
  have hall := (echoes_iff atRowEnd_onScreen rfl correctedLine).mpr fun x hx ↦ by
    rcases visits_next hr hx with ⟨-, he⟩ | hx
    · cases he
    rcases visits_next hu hx with ⟨-, he⟩ | hx
    · cases he
    rcases visits_next hv hx with ⟨rfl, -⟩ | hx
    · exact hrow
    · cases (visits_singleton hx).2
  have hvisit : Visits press ⟨atRowEnd, 0⟩ correctedLine u .backspace :=
    .later hr (.later hu .here)
  refine ⟨u, v, w, hrun, hall.1 w (.stop hrun), ?_, ?_, hvisit, hv, hall.2 u v hvisit hv⟩
  all_goals
    obtain rfl := Option.some.inj hr
    obtain rfl := Option.some.inj hu
    obtain rfl := Option.some.inj hv
    obtain rfl := Option.some.inj hw
  · decide
  · decide

end Sample

end Typing

end ApollOS
