import ApollOS.Foundation.Page
import ApollOS.Kernel.Screen

namespace ApollOS

open Function

variable {c : Console} {a : ℤ} {n : ℕ}

/-- The addresses of the characters of the screen, between which the attributes lie. -/
def textCells : Set ℤ := {a | ∃ row < numRows, ∃ col < numCols, a = cellAddr col row}

def lineBreak (b : UInt8) : Bool := b = 10 ∨ b = 13

namespace Console

/-- The screen as a page: its rows, and nothing below them. -/
def page (c : Console) : Page UInt8 where
  cell row col := if row < numRows ∧ col < numCols then c.mem (cellAddr col row) else 0
  row := c.screenY.toNat
  col := c.screenX.toNat

/-- The screen with its cursor is what the window onto a page shows: 25 rows, of which
the last is that of the cursor if not all fit. -/
structure Shows (c : Console) (p : Page UInt8) : Prop where
  cells : ∀ row < numRows, ∀ col < numCols,
    c.mem (cellAddr col row) = p.cell (p.row - (numRows - 1) + row) col
  screenX : c.screenX = p.col
  screenY : c.screenY = (p.row - (p.row - (numRows - 1)) : ℕ)

def typed (c : Console) (b : UInt8) : Console :=
  { c.store (cellAddr c.screenX c.screenY) b with screenX := c.screenX + 1 }

theorem putc_eq {b : UInt8} : c.putc b =
    if b = 10 ∨ b = 13 then c.doEnter
    else if c.screenX + 1 ≥ (numCols : ℤ) then (c.typed b).doEnter
    else (c.typed b).updateCursorLoc (c.screenX + 1) c.screenY := rfl

@[simp] theorem store_mem {b : UInt8} : (c.store a b).mem = update c.mem a b := rfl

section Scroll

theorem shiftRow_mem {row : ℕ} :
    ((List.range n).foldl (fun c (col : ℕ) ↦
      c.store (cellAddr col row) (c.mem (cellAddr col (row + 1)))) c).mem a =
    if cellAddr 0 row ≤ a ∧ a < cellAddr n row ∧ a % 2 = 0 then c.mem (a + 2 * numCols)
    else c.mem a := by
  induction n generalizing a with
  | zero =>
    rw [if_neg fun h ↦ absurd (h.1.trans_lt h.2.1) (lt_irrefl _)]
    rfl
  | succ n ih =>
    rw [List.range_succ, List.foldl_append, List.foldl_cons, List.foldl_nil]
    generalize (List.range n).foldl (fun c (col : ℕ) ↦
      c.store (cellAddr col row) (c.mem (cellAddr col (row + 1)))) c = c' at ih
    have hnext : c'.mem (cellAddr n (row + 1)) = c.mem (cellAddr n row + 2 * numCols) := by
      have hbelow : cellAddr n (row + 1) = cellAddr n row + 2 * numCols := by
        simp only [cellAddr, numCols]
        omega
      rw [ih, hbelow, if_neg]
      simp only [numCols]
      omega
    rw [store_mem, hnext]
    by_cases ha : a = cellAddr n row
    · subst ha
      rw [update_self, if_pos]
      simp only [cellAddr, video, numCols]
      omega
    · rw [update_of_ne ha, ih]
      refine if_congr ?_ rfl rfl
      simp only [cellAddr, video, numCols] at *
      omega

theorem shiftRows_mem : c.shiftRows.mem a =
    if video ≤ a ∧ a < cellAddr 0 (numRows - 1) ∧ a % 2 = 0 then c.mem (a + 2 * numCols)
    else c.mem a := by
  have hrows (n : ℕ) (a : ℤ) : ((List.range n).foldl (fun c (row : ℕ) ↦
      (List.range numCols).foldl (fun c (col : ℕ) ↦
        c.store (cellAddr col row) (c.mem (cellAddr col (row + 1)))) c) c).mem a =
      if video ≤ a ∧ a < cellAddr 0 n ∧ a % 2 = 0 then c.mem (a + 2 * numCols)
      else c.mem a := by
    induction n generalizing a with
    | zero =>
      rw [if_neg fun h ↦ absurd (h.1.trans_lt h.2.1) (lt_irrefl _)]
      rfl
    | succ n ih =>
      rw [List.range_succ, List.foldl_append, List.foldl_cons, List.foldl_nil, shiftRow_mem, ih, ih]
      by_cases hrow : cellAddr 0 n ≤ a ∧ a < cellAddr numCols n ∧ a % 2 = 0
      · rw [if_pos hrow, if_neg, if_pos]
        · simp only [cellAddr, video, numCols] at *
          omega
        · simp only [cellAddr, video, numCols] at *
          omega
      · rw [if_neg hrow]
        refine if_congr ?_ rfl rfl
        simp only [cellAddr, video, numCols] at *
        omega
  exact hrows (numRows - 1) a

theorem clearBottomRow_mem : c.clearBottomRow.mem a =
    if cellAddr 0 (numRows - 1) ≤ a ∧ a < cellAddr 0 numRows ∧ a % 2 = 0 then 0 else c.mem a := by
  have hcols (n : ℕ) : ((List.range n).foldl (fun c (col : ℕ) ↦
      c.store (cellAddr col (numRows - 1)) 0) c).mem a =
      if cellAddr 0 (numRows - 1) ≤ a ∧ a < cellAddr n (numRows - 1) ∧ a % 2 = 0 then 0
      else c.mem a := by
    induction n with
    | zero =>
      rw [if_neg fun h ↦ absurd (h.1.trans_lt h.2.1) (lt_irrefl _)]
      rfl
    | succ n ih =>
      rw [List.range_succ, List.foldl_append, List.foldl_cons, List.foldl_nil, store_mem]
      by_cases ha : a = cellAddr n (numRows - 1)
      · subst ha
        rw [update_self, if_pos]
        simp only [cellAddr, video, numCols, numRows]
        omega
      · rw [update_of_ne ha, ih]
        refine if_congr ?_ rfl rfl
        simp only [cellAddr, video, numCols, numRows] at *
        omega
  exact hcols numCols

theorem scroll_mem : c.scroll.mem a =
    if video ≤ a ∧ a < cellAddr 0 numRows ∧ a % 2 = 0 then
      if a < cellAddr 0 (numRows - 1) then c.mem (a + 2 * numCols) else 0
    else c.mem a := by
  have hmem : c.scroll.mem a = c.shiftRows.clearBottomRow.mem a := rfl
  rw [hmem, clearBottomRow_mem, shiftRows_mem]
  by_cases htext : video ≤ a ∧ a < cellAddr 0 numRows ∧ a % 2 = 0
  · rw [if_pos htext]
    by_cases hlast : a < cellAddr 0 (numRows - 1)
    · rw [if_pos hlast, if_neg fun h ↦ absurd hlast (not_lt.mpr h.1), if_pos]
      exact ⟨htext.1, hlast, htext.2.2⟩
    · rw [if_neg hlast, if_pos ⟨not_lt.mp hlast, htext.2⟩]
  · rw [if_neg htext, if_neg, if_neg]
    · simp only [cellAddr, video, numCols, numRows] at *
      omega
    · simp only [cellAddr, video, numCols, numRows] at *
      omega

end Scroll

section Page

theorem page_eq {c' : Console} {p : Page UInt8} (hcell : ∀ row < numRows, ∀ col < numCols,
    c'.mem (cellAddr col row) = p.cell row col)
    (hout : ∀ row col, ¬ (row < numRows ∧ col < numCols) → p.cell row col = 0)
    (hrow : c'.screenY.toNat = p.row) (hcol : c'.screenX.toNat = p.col) : c'.page = p := by
  obtain ⟨cell, row, col⟩ := p
  obtain rfl := hrow
  obtain rfl := hcol
  rw [page, Page.mk.injEq, and_iff_left ⟨rfl, rfl⟩]
  funext row col
  split_ifs with hin
  · exact hcell row hin.1 col hin.2
  · exact (hout row col hin).symm

theorem page_congr {c' : Console} (hmem : c'.mem = c.mem) (hx : c'.screenX = c.screenX)
    (hy : c'.screenY = c.screenY) : c'.page = c.page := by
  rw [page, page, hmem, hx, hy]

theorem page_cell {row col : ℕ} (hrow : row < numRows) (hcol : col < numCols) :
    c.page.cell row col = c.mem (cellAddr col row) := if_pos ⟨hrow, hcol⟩

theorem page_cell_out {row col : ℕ} (h : ¬ (row < numRows ∧ col < numCols)) :
    c.page.cell row col = 0 := if_neg h

theorem scroll_cell {row col : ℕ} (hrow : row < numRows) (hcol : col < numCols) :
    c.scroll.mem (cellAddr col row) =
      if row + 1 < numRows then c.mem (cellAddr col (row + 1 : ℕ)) else 0 := by
  rw [scroll_mem, if_pos]
  · have hbelow : cellAddr col row + 2 * numCols = cellAddr col (row + 1 : ℕ) := by
      simp only [cellAddr, numCols]
      omega
    rw [hbelow]
    refine if_congr ?_ rfl rfl
    simp only [cellAddr, video, numCols, numRows] at *
    omega
  · simp only [cellAddr, video, numCols, numRows] at *
    omega

theorem scroll_page : c.scroll.page = c.page.scroll numRows 0 := by
  refine page_eq (fun row hrow col hcol ↦ ?_) (fun row col hout ↦ ?_) rfl rfl
  · rw [scroll_cell hrow hcol, Page.scroll_cell]
    split_ifs with hlast
    · exact (page_cell hlast hcol).symm
    · rfl
  · rw [Page.scroll_cell]
    split_ifs with hlast
    · exact page_cell_out fun h ↦ hout ⟨Nat.lt_of_succ_lt h.1, h.2⟩
    · rfl

theorem doEnter_page (hy : 0 ≤ c.screenY) : c.doEnter.page = c.page.advance numRows 0 := by
  have hlast : c.page.row + 1 = numRows ↔ c.screenY = numRows - 1 := by
    simp only [page, numRows]
    omega
  rw [doEnter, Page.advance]
  by_cases h : c.screenY = numRows - 1
  · rw [if_pos h, if_pos (hlast.mpr h), ← scroll_page]
    exact page_congr rfl rfl rfl
  · rw [if_neg h, if_neg (hlast.not.mpr h)]
    refine page_eq (fun row hrow col hcol ↦ (page_cell hrow hcol).symm)
      (fun row col hout ↦ page_cell_out hout) ?_ rfl
    simp only [updateCursorLoc, page, Page.newLine]
    omega

theorem cellAddr_inj {x y x' y' : ℕ} (hx : x < numCols) (hx' : x' < numCols) :
    cellAddr x y = cellAddr x' y' ↔ x = x' ∧ y = y' := by
  simp only [cellAddr, numCols] at *
  omega

theorem typed_page (h : c.OnScreen) (b : UInt8) : (c.typed b).page = c.page.put b := by
  obtain ⟨x, y, hcol, hrow⟩ : ∃ x y : ℕ, c.screenX = x ∧ c.screenY = y :=
    ⟨c.screenX.toNat, c.screenY.toNat, (Int.toNat_of_nonneg h.x_nonneg).symm,
      (Int.toNat_of_nonneg h.y_nonneg).symm⟩
  have hxlt : x < numCols := by
    have hlt := h.x_lt
    rw [hcol] at hlt
    exact_mod_cast hlt
  have hylt : y < numRows := by
    have hlt := h.y_lt
    rw [hrow] at hlt
    exact_mod_cast hlt
  have hpx : c.page.col = x := by rw [page, hcol, Int.toNat_natCast]
  have hpy : c.page.row = y := by rw [page, hrow, Int.toNat_natCast]
  have hmem : (c.typed b).mem = update c.mem (cellAddr x y) b := by rw [← hcol, ← hrow]; rfl
  refine page_eq (fun row hr col hc ↦ ?_) (fun row col hout ↦ ?_) ?_ ?_
  · rw [hmem, Page.put_cell, hpx, hpy, update_apply, page_cell hr hc]
    exact if_congr ((cellAddr_inj hc hxlt).trans and_comm) rfl rfl
  · rw [Page.put_cell, hpx, hpy, if_neg, page_cell_out hout]
    rintro ⟨rfl, rfl⟩
    exact hout ⟨hylt, hxlt⟩
  · rfl
  · simp only [typed, Page.put, page]
    omega

/-- What `putc` makes of the screen is what writing the character makes of the page. -/
theorem putc_page (h : c.OnScreen) (b : UInt8) :
    (c.putc b).page = c.page.write lineBreak numCols (Page.advance numRows 0) b := by
  have hfull : c.page.col + 1 < numCols ↔ ¬ c.screenX + 1 ≥ (numCols : ℤ) := by
    have hx := h.x_nonneg
    simp only [page, numCols]
    omega
  rw [putc_eq, Page.write]
  by_cases hb : b = 10 ∨ b = 13
  · have hbreak : lineBreak b = true := decide_eq_true hb
    rw [if_pos hb, if_pos hbreak]
    exact doEnter_page h.y_nonneg
  · have hbreak : lineBreak b ≠ true := mt of_decide_eq_true hb
    rw [if_neg hb, if_neg hbreak]
    by_cases hx : c.screenX + 1 ≥ (numCols : ℤ)
    · rw [if_pos hx, if_neg (mt hfull.mp (not_not.mpr hx)), ← typed_page h]
      exact doEnter_page (c := c.typed b) h.y_nonneg
    · rw [if_neg hx, if_pos (hfull.mpr hx), ← typed_page h]
      exact page_congr rfl rfl rfl

theorem puts_page (h : c.OnScreen) (s : List UInt8) :
    (c.puts s).page = c.page.writeAll lineBreak numCols (Page.advance numRows 0) s := by
  induction s generalizing c with
  | nil => rfl
  | cons b s ih =>
    rw [puts, List.foldl_cons, Page.writeAll, List.foldl_cons, ← putc_page h]
    exact ih (h.putc b)

end Page

section Frame

theorem mem_textCells_iff : a ∈ textCells ↔ video ≤ a ∧ a < cellAddr 0 numRows ∧ a % 2 = 0 := by
  constructor
  · rintro ⟨row, hrow, col, hcol, rfl⟩
    simp only [cellAddr, video, numCols, numRows] at *
    omega
  · intro h
    obtain ⟨i, hi⟩ : ∃ i : ℕ, a = video + 2 * i :=
      ⟨((a - video) / 2).toNat, by simp only [cellAddr, video, numCols, numRows] at *; omega⟩
    subst hi
    refine ⟨i / numCols, ?_, i % numCols, Nat.mod_lt _ (by decide), ?_⟩
    · simp only [cellAddr, video, numCols, numRows] at *
      omega
    · simp only [cellAddr, video, numCols] at *
      omega

theorem OnScreen.cellAddr_mem_textCells (h : c.OnScreen) :
    cellAddr c.screenX c.screenY ∈ textCells := by
  obtain ⟨hx, hx', hy, hy'⟩ := h
  rw [mem_textCells_iff]
  simp only [cellAddr, video, numCols, numRows] at *
  omega

theorem doEnter_frame (ha : a ∉ textCells) : c.doEnter.mem a = c.mem a := by
  rw [mem_textCells_iff] at ha
  have hscroll : c.scroll.mem a = c.mem a := scroll_mem.trans (if_neg ha)
  by_cases h : c.screenY = numRows - 1
  · simp only [doEnter, if_pos h, updateCursorLoc, hscroll]
  · simp only [doEnter, if_neg h, updateCursorLoc]

theorem putc_frame (h : c.OnScreen) (b : UInt8) (ha : a ∉ textCells) :
    (c.putc b).mem a = c.mem a := by
  have htyped : (c.typed b).mem a = c.mem a :=
    update_of_ne (fun he : a = _ ↦ ha (he ▸ h.cellAddr_mem_textCells)) _ _
  rw [putc_eq]
  split_ifs
  · exact doEnter_frame ha
  · exact (doEnter_frame ha).trans htyped
  · exact htyped

theorem puts_frame (h : c.OnScreen) (s : List UInt8) (ha : a ∉ textCells) :
    (c.puts s).mem a = c.mem a := by
  induction s generalizing c with
  | nil => rfl
  | cons b s ih => exact (ih (h.putc b)).trans (putc_frame h b ha)

/-- The position that the display has been sent is that of the cursor. -/
def Displayed (c : Console) : Prop :=
  c.cursorLoc = UInt16.ofInt (numCols * c.screenY + c.screenX)

theorem putc_displayed (b : UInt8) : (c.putc b).Displayed := by
  rw [putc_eq]
  split_ifs <;> rfl

theorem puts_displayed {s : List UInt8} (hs : s ≠ []) : (c.puts s).Displayed := by
  have hrest (c : Console) (h : c.Displayed) (s : List UInt8) : (c.puts s).Displayed := by
    induction s generalizing c with
    | nil => exact h
    | cons b s ih => exact ih _ (putc_displayed b)
  cases s with
  | nil => exact absurd rfl hs
  | cons b s => exact hrest _ (putc_displayed b) s

end Frame

theorem Shows.of_views {p : Page UInt8} (h : c.OnScreen) (hv : Page.Views numRows 0 c.page p) :
    c.Shows p where
  cells row hrow col hcol := (page_cell hrow hcol).symm.trans (congrFun (hv.cells row hrow) col)
  screenX := by
    have hcol : c.screenX.toNat = p.col := hv.col
    rw [← hcol, Int.toNat_of_nonneg h.x_nonneg]
  screenY := by
    have hrow : p.row = p.row - (numRows - 1) + c.screenY.toNat := hv.row
    have hy := h.y_nonneg
    omega

/-- Whatever is printed, the screen shows the end of the page that has been written: the
old screen, with what was printed on it and on the blank rows below it. -/
theorem puts_shows (h : c.OnScreen) (s : List UInt8) :
    (c.puts s).Shows (c.page.writeAll lineBreak numCols Page.newLine s) ∧
    (∀ a ∉ textCells, (c.puts s).mem a = c.mem a) ∧ (s ≠ [] → (c.puts s).Displayed) := by
  have hrow : c.page.row < numRows := by
    have hlt := h.y_lt
    have hnonneg := h.y_nonneg
    simp only [page, numRows] at *
    omega
  have hstart : Page.Views numRows 0 c.page c.page := by
    refine .refl hrow fun row hle ↦ funext fun col ↦ page_cell_out fun hin ↦ ?_
    exact absurd hin.1 (Nat.not_lt.mpr hle)
  have hviews : Page.Views numRows 0 (c.puts s).page
      (c.page.writeAll lineBreak numCols Page.newLine s) := by
    rw [puts_page h]
    exact hstart.writeAll s
  exact ⟨.of_views (h.puts s) hviews, fun a ha ↦ puts_frame h s ha, puts_displayed⟩

theorem puts_shows_sample : ∃ c : Console, c.screenX = 79 ∧ c.screenY = 24 ∧
    (c.puts (ascii "ab")).mem (cellAddr 79 23) = 97 ∧
    (c.puts (ascii "ab")).mem (cellAddr 0 24) = 98 ∧ (c.puts (ascii "ab")).screenX = 1 := by
  have hon : (⟨fun _ ↦ 1, 79, 24, 0, []⟩ : Console).OnScreen :=
    ⟨by decide, by decide, by decide, by decide⟩
  obtain ⟨hshows, -⟩ := puts_shows hon (ascii "ab")
  exact ⟨_, rfl, rfl, hshows.cells 23 (by decide) 79 (by decide),
    hshows.cells 24 (by decide) 0 (by decide), hshows.screenX⟩

end Console

end ApollOS
