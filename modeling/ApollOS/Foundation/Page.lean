import Mathlib.Logic.Function.Basic
import Mathlib.Data.List.Basic

namespace ApollOS

open Function

/-- Rows of cells without an end, and the cell that is written next. -/
structure Page (α : Type*) where
  cell : ℕ → ℕ → α
  row : ℕ
  col : ℕ

namespace Page

variable {α : Type*} (breaks : α → Bool) (width height : ℕ) (blank : α) (p : Page α)

def newLine : Page α := { p with row := p.row + 1, col := 0 }

def put (a : α) : Page α :=
  { p with cell := update p.cell p.row (update (p.cell p.row) p.col a), col := p.col + 1 }

/-- A character is put where the cursor is, unless it breaks the line. `next` goes to
the line below, after a break and at the end of a line. -/
def write (next : Page α → Page α) (a : α) : Page α :=
  if breaks a then next p else if p.col + 1 < width then p.put a else next (p.put a)

def writeAll (next : Page α → Page α) (s : List α) : Page α :=
  s.foldl (fun p a ↦ p.write breaks width next a) p

/-- Of a page of which only `height` rows are kept all move up by one. -/
def scroll : Page α where
  cell row := if row + 1 < height then p.cell (row + 1) else fun _ ↦ blank
  row := height - 1
  col := 0

def advance : Page α := if p.row + 1 = height then p.scroll height blank else p.newLine

/-- How far down the page the window on it begins: the row of the cursor is in it. -/
def top : ℕ := p.row - (height - 1)

/-- A page of `height` rows is a window onto one without an end, which is blank below
what has been written. -/
structure Views (w p : Page α) : Prop where
  cells : ∀ row < height, w.cell row = p.cell (p.top height + row)
  row : p.row = p.top height + w.row
  row_lt : w.row < height
  col : w.col = p.col
  below : ∀ row, p.row < row → height ≤ row → p.cell row = fun _ ↦ blank

variable {breaks width height blank p} {w : Page α} {next next' : Page α → Page α}

theorem scroll_cell {row col : ℕ} : (p.scroll height blank).cell row col =
    if row + 1 < height then p.cell (row + 1) col else blank := by
  by_cases h : row + 1 < height
  · simp only [scroll, if_pos h]
  · simp only [scroll, if_neg h]

theorem put_cell {a : α} {row col : ℕ} : (p.put a).cell row col =
    if row = p.row ∧ col = p.col then a else p.cell row col := by
  rw [put]
  by_cases hrow : row = p.row
  · subst hrow
    by_cases hcol : col = p.col
    · subst hcol
      simp
    · simp [hcol]
  · simp [hrow]

namespace Views

theorem refl (hrow : p.row < height) (hbelow : ∀ row, height ≤ row → p.cell row = fun _ ↦ blank) :
    Views height blank p p := by
  have htop : p.top height = 0 := by
    rw [top]
    omega
  refine ⟨fun row _ ↦ ?_, ?_, hrow, rfl, fun row _ hle ↦ hbelow row hle⟩
  · rw [htop, Nat.zero_add]
  · rw [htop, Nat.zero_add]

theorem put (h : Views height blank w p) (a : α) : Views height blank (w.put a) (p.put a) where
  cells row hlt := by
    by_cases hrow : row = w.row
    · subst hrow
      have hsame : (p.put a).top height + w.row = p.row := h.row.symm
      have hcell : w.cell w.row = p.cell p.row := by rw [h.cells _ h.row_lt, ← h.row]
      rw [hsame]
      simp only [Page.put, update_self, hcell, h.col]
    · have hne : p.top height + row ≠ p.row := by
        rw [h.row]
        omega
      have hrest : (p.put a).top height = p.top height := rfl
      rw [hrest]
      simp only [Page.put, update_of_ne hrow, update_of_ne hne]
      exact h.cells row hlt
  row := h.row
  row_lt := h.row_lt
  col := congrArg (· + 1) h.col
  below row hlt hle := (update_of_ne (Nat.ne_of_gt hlt) _ _).trans (h.below row hlt hle)

theorem advance (h : Views height blank w p) :
    Views height blank (w.advance height blank) p.newLine := by
  have hrow := h.row
  have hlt := h.row_lt
  rw [top] at hrow
  by_cases hlast : w.row + 1 = height
  · have htop : p.newLine.top height = p.top height + 1 := by
      simp only [top, newLine]
      omega
    rw [Page.advance, if_pos hlast]
    refine ⟨fun row hr ↦ ?_, ?_, ?_, rfl, fun row hr hle ↦ h.below row (Nat.lt_of_succ_lt hr) hle⟩
    · rw [htop]
      simp only [scroll, newLine]
      split_ifs with hnext
      · rw [h.cells _ hnext, Nat.add_right_comm, Nat.add_assoc]
      · refine (h.below _ ?_ ?_).symm
        · rw [top]
          omega
        · rw [top]
          omega
    · simp only [scroll, newLine, top]
      omega
    · simp only [scroll]
      omega
  · have htop : p.newLine.top height = p.top height := by
      simp only [top, newLine]
      omega
    rw [Page.advance, if_neg hlast]
    refine ⟨fun row hr ↦ ?_, ?_, ?_, rfl, fun row hr hle ↦ h.below row (Nat.lt_of_succ_lt hr) hle⟩
    · rw [htop]
      exact h.cells row hr
    · simp only [newLine, top]
      omega
    · simp only [newLine]
      omega

theorem write (h : Views height blank w p) (a : α) : Views height blank
    (w.write breaks width (Page.advance height blank) a) (p.write breaks width newLine a) := by
  rw [Page.write, Page.write, h.col]
  split_ifs
  · exact h.advance
  · exact h.put a
  · exact (h.put a).advance

/-- The window that scrolls stays a window onto the page that does not end. -/
theorem writeAll (h : Views height blank w p) (s : List α) : Views height blank
    (w.writeAll breaks width (Page.advance height blank) s)
    (p.writeAll breaks width newLine s) := by
  induction s generalizing w p with
  | nil => exact h
  | cons a s ih => exact ih (h.write a)

end Views

end Page

end ApollOS
