import ApollOS.Kernel.State
import Mathlib.Data.Int.ConditionallyCompleteOrder
import Mathlib.Order.Interval.Set.Basic
import Mathlib.Tactic.IntervalCases

namespace ApollOS

/-- `memcpy` between ranges that do not overlap. -/
def memcpy (m : Memory) (dest src : ℤ) (n : ℕ) : Memory :=
  fun a ↦ if dest ≤ a ∧ a < dest + n then m (src + (a - dest)) else m a

/-- The address of the character of a cell; its attribute byte follows. -/
def cellAddr (x y : ℤ) : ℤ := video + 2 * (numCols * y + x)

def textMemory : Set ℤ := Set.Ico video (video + 2 * numRows * numCols)

namespace Console

variable (c : Console)

def store (a : ℤ) (b : UInt8) : Console :=
  { c with mem := Function.update c.mem a b, stored := a :: c.stored }

def setScreenPos (x y : ℤ) : Console := { c with screenX := x, screenY := y }

def updateCursorLoc (x y : ℤ) : Console :=
  { c with cursorLoc := UInt16.ofInt (numCols * y + x) }

/-- The first loop of `scroll`: every row takes the characters of the next. -/
def shiftRows : Console :=
  (List.range (numRows - 1)).foldl (fun c (row : ℕ) ↦
    (List.range numCols).foldl (fun c (col : ℕ) ↦
      c.store (cellAddr col row) (c.mem (cellAddr col (row + 1)))) c) c

/-- The second loop of `scroll`. -/
def clearBottomRow : Console :=
  (List.range numCols).foldl (fun c (col : ℕ) ↦ c.store (cellAddr col (numRows - 1)) 0) c

def scroll : Console := c.shiftRows.clearBottomRow.setScreenPos 0 (numRows - 1)

def doEnter : Console :=
  let c := if c.screenY = numRows - 1 then c.scroll else { c with screenY := c.screenY + 1 }
  let c := { c with screenX := 0 }
  c.updateCursorLoc c.screenX c.screenY

def putc (b : UInt8) : Console :=
  if b = 10 ∨ b = 13 then c.doEnter
  else
    let c := c.store (cellAddr c.screenX c.screenY) b
    let c := { c with screenX := c.screenX + 1 }
    if c.screenX ≥ (numCols : ℤ) then c.doEnter else c.updateCursorLoc c.screenX c.screenY

def puts (s : List UInt8) : Console := s.foldl putc c

/-- The loop of `clear`, which leaves the attributes alone. -/
def blank : Console :=
  (List.range (numRows * numCols)).foldl (fun c (i : ℕ) ↦ c.store (video + 2 * i) 32) c

def clear : Console :=
  ((c.blank.setScreenPos 0 0).updateCursorLoc 0 0).puts (ascii "391OS> ")

def doBackspace : Console :=
  let c :=
    if c.screenX = 0 ∧ c.screenY > 0 then c.setScreenPos (numCols - 2) (c.screenY - 1)
    else { c with screenX := c.screenX - 1 }
  let c := c.store (cellAddr c.screenX c.screenY) 0
  c.updateCursorLoc c.screenX c.screenY

structure OnScreen : Prop where
  x_nonneg : 0 ≤ c.screenX
  x_lt : c.screenX < numCols
  y_nonneg : 0 ≤ c.screenY
  y_lt : c.screenY < numRows

/-- Between two states of the console only addresses of `W` are stored to. -/
structure WritesIn (W : Set ℤ) (c c' : Console) : Prop where
  frame : ∀ a, a ∉ W → c'.mem a = c.mem a
  log : ∀ a ∈ c'.stored, a ∈ c.stored ∨ a ∈ W

variable {c} {c' c'' : Console} {W : Set ℤ}

namespace WritesIn

theorem refl : WritesIn W c c := ⟨fun _ _ ↦ rfl, fun _ h ↦ .inl h⟩

theorem trans (h : WritesIn W c c') (h' : WritesIn W c' c'') : WritesIn W c c'' where
  frame a ha := (h'.frame a ha).trans (h.frame a ha)
  log a ha := (h'.log a ha).elim (h.log a) .inr

theorem store {a : ℤ} {b : UInt8} (ha : a ∈ W) : WritesIn W c (c.store a b) where
  frame i hi := Function.update_of_ne (fun h : i = a ↦ hi (h ▸ ha)) _ _
  log i hi := (List.mem_cons.mp hi).elim (fun h : i = a ↦ .inr (h ▸ ha)) .inl

theorem congr (h : WritesIn W c c') (hm : c''.mem = c'.mem) (hs : c''.stored = c'.stored) :
    WritesIn W c c'' where
  frame a ha := hm ▸ h.frame a ha
  log a ha := h.log a (hs ▸ ha)

theorem foldl {α : Type*} {f : Console → α → Console} {l : List α}
    (hf : ∀ c, ∀ x ∈ l, WritesIn W c (f c x)) : WritesIn W c (l.foldl f c) := by
  induction l generalizing c with
  | nil => exact refl
  | cons x l ih =>
    exact (hf c x List.mem_cons_self).trans (ih fun c y hy ↦ hf c y (List.mem_cons_of_mem x hy))

end WritesIn

theorem cellAddr_mem {x y : ℤ} (hx : 0 ≤ x) (hx' : x < numCols) (hy : 0 ≤ y) (hy' : y < numRows) :
    cellAddr x y ∈ textMemory := by
  simp only [numCols, numRows] at hx' hy'
  simp only [textMemory, cellAddr, numCols, numRows, Set.mem_Ico]
  omega

theorem OnScreen.cellAddr_mem (h : c.OnScreen) : cellAddr c.screenX c.screenY ∈ textMemory :=
  Console.cellAddr_mem h.x_nonneg h.x_lt h.y_nonneg h.y_lt

theorem shiftRows_writesIn : WritesIn textMemory c c.shiftRows := by
  refine .foldl fun c row hrow ↦ .foldl fun c col hcol ↦ .store (Console.cellAddr_mem ?_ ?_ ?_ ?_)
  · exact Int.natCast_nonneg col
  · exact Int.ofNat_lt.mpr (List.mem_range.mp hcol)
  · exact Int.natCast_nonneg row
  · have h : row < numRows - 1 := List.mem_range.mp hrow
    exact Int.ofNat_lt.mpr (h.trans_le (Nat.sub_le _ _))

theorem clearBottomRow_writesIn : WritesIn textMemory c c.clearBottomRow := by
  refine .foldl fun c col hcol ↦ .store (Console.cellAddr_mem ?_ ?_ ?_ ?_)
  · exact Int.natCast_nonneg col
  · exact Int.ofNat_lt.mpr (List.mem_range.mp hcol)
  · decide
  · decide

theorem scroll_writesIn : WritesIn textMemory c c.scroll :=
  (shiftRows_writesIn.trans clearBottomRow_writesIn).congr rfl rfl

@[simp] theorem scroll_screenX : c.scroll.screenX = 0 := rfl
@[simp] theorem scroll_screenY : c.scroll.screenY = numRows - 1 := rfl

@[simp] theorem doEnter_screenX : c.doEnter.screenX = 0 := by
  simp only [doEnter, updateCursorLoc]

theorem doEnter_screenY :
    c.doEnter.screenY = if c.screenY = numRows - 1 then c.screenY else c.screenY + 1 := by
  by_cases h : c.screenY = numRows - 1 <;> simp [doEnter, updateCursorLoc, h]

theorem doEnter_writesIn : WritesIn textMemory c c.doEnter := by
  by_cases h : c.screenY = numRows - 1
  · exact scroll_writesIn.congr (by simp [doEnter, updateCursorLoc, h])
      (by simp [doEnter, updateCursorLoc, h])
  · exact WritesIn.refl.congr (by simp [doEnter, updateCursorLoc, h])
      (by simp [doEnter, updateCursorLoc, h])

theorem OnScreen.doEnter (h : c.OnScreen) : c.doEnter.OnScreen := by
  obtain ⟨-, -, hy, hy'⟩ := h
  simp only [numRows] at hy'
  constructor <;> simp only [doEnter_screenX, doEnter_screenY, numRows, numCols]
  · exact le_rfl
  · decide
  · split_ifs <;> omega
  · split_ifs <;> omega

theorem putc_screenX (b : UInt8) : (c.putc b).screenX =
    if b = 10 ∨ b = 13 ∨ c.screenX + 1 ≥ numCols then 0 else c.screenX + 1 := by
  unfold putc
  by_cases hb : b = 10 ∨ b = 13
  · rcases hb with hb | hb <;> simp [hb, doEnter_screenX]
  · have hb' := not_or.mp hb
    by_cases hx : c.screenX + 1 ≥ numCols
    · simp [hb', store, doEnter_screenX, hx]
    · simp [hb', store, updateCursorLoc, hx]

theorem putc_screenY (b : UInt8) : (c.putc b).screenY =
    if (b = 10 ∨ b = 13 ∨ c.screenX + 1 ≥ numCols) ∧ c.screenY ≠ numRows - 1 then c.screenY + 1
    else c.screenY := by
  unfold putc
  by_cases hb : b = 10 ∨ b = 13
  · by_cases hy : c.screenY = numRows - 1 <;>
      rcases hb with hb | hb <;> simp [hb, doEnter_screenY, hy]
  · have hb' := not_or.mp hb
    by_cases hx : c.screenX + 1 ≥ numCols
    · by_cases hy : c.screenY = numRows - 1 <;> simp [hb', store, doEnter_screenY, hx, hy]
    · simp [hb', store, updateCursorLoc, hx]

theorem OnScreen.putc (h : c.OnScreen) (b : UInt8) : (c.putc b).OnScreen := by
  obtain ⟨hx, hx', hy, hy'⟩ := h
  simp only [numRows, numCols] at hx' hy'
  constructor <;> simp only [putc_screenX, putc_screenY, numRows, numCols] <;> split_ifs <;> omega

theorem putc_writesIn (h : c.OnScreen) (b : UInt8) : WritesIn textMemory c (c.putc b) := by
  have hs : WritesIn textMemory c (c.store (cellAddr c.screenX c.screenY) b) :=
    .store h.cellAddr_mem
  unfold Console.putc
  dsimp only
  split_ifs
  · exact doEnter_writesIn
  · have hx : WritesIn textMemory c
        { c.store (cellAddr c.screenX c.screenY) b with screenX := c.screenX + 1 } :=
      hs.congr rfl rfl
    exact hx.trans doEnter_writesIn
  · exact hs.congr rfl rfl

theorem OnScreen.puts (h : c.OnScreen) (s : List UInt8) : (c.puts s).OnScreen := by
  induction s generalizing c with
  | nil => exact h
  | cons b s ih => exact ih (h.putc b)

theorem puts_writesIn (h : c.OnScreen) (s : List UInt8) : WritesIn textMemory c (c.puts s) := by
  induction s generalizing c with
  | nil => exact .refl
  | cons b s ih => exact (putc_writesIn h b).trans (ih (h.putc b))

@[simp] theorem doBackspace_screenX : c.doBackspace.screenX =
    if c.screenX = 0 ∧ c.screenY > 0 then (numCols : ℤ) - 2 else c.screenX - 1 := by
  by_cases h : c.screenX = 0 ∧ c.screenY > 0 <;>
    simp [doBackspace, updateCursorLoc, store, setScreenPos, h]

@[simp] theorem doBackspace_screenY : c.doBackspace.screenY =
    if c.screenX = 0 ∧ c.screenY > 0 then c.screenY - 1 else c.screenY := by
  by_cases h : c.screenX = 0 ∧ c.screenY > 0 <;>
    simp [doBackspace, updateCursorLoc, store, setScreenPos, h]

theorem OnScreen.doBackspace (h : c.OnScreen) (hne : ¬ (c.screenX = 0 ∧ c.screenY = 0)) :
    c.doBackspace.OnScreen := by
  obtain ⟨hx, hx', hy, hy'⟩ := h
  simp only [numRows, numCols] at hx' hy'
  constructor <;> simp only [doBackspace_screenX, doBackspace_screenY, numRows, numCols] <;>
    split_ifs <;> omega

theorem doBackspace_writesIn (h : c.doBackspace.OnScreen) :
    WritesIn textMemory c c.doBackspace := by
  have hm := h.cellAddr_mem
  by_cases hx : c.screenX = 0 ∧ c.screenY > 0
  · simp only [doBackspace_screenX, doBackspace_screenY, hx] at hm
    exact (WritesIn.store (b := 0) hm).congr
      (by simp [doBackspace, updateCursorLoc, store, setScreenPos, hx])
      (by simp [doBackspace, updateCursorLoc, store, setScreenPos, hx])
  · simp only [doBackspace_screenX, doBackspace_screenY, hx] at hm
    exact (WritesIn.store (b := 0) hm).congr (by simp [doBackspace, updateCursorLoc, store, hx])
      (by simp [doBackspace, updateCursorLoc, store, hx])

theorem blank_writesIn : WritesIn textMemory c c.blank := by
  refine .foldl fun c i hi ↦ .store ?_
  have hi : i < numRows * numCols := List.mem_range.mp hi
  simp only [numRows, numCols] at hi
  simp only [textMemory, numRows, numCols, Set.mem_Ico]
  omega

theorem home_onScreen : ((c.setScreenPos 0 0).updateCursorLoc 0 0).OnScreen where
  x_nonneg := le_refl (0 : ℤ)
  x_lt := show (0 : ℤ) < numCols by decide
  y_nonneg := le_refl (0 : ℤ)
  y_lt := show (0 : ℤ) < numRows by decide

theorem clear_onScreen : c.clear.OnScreen := home_onScreen.puts _

theorem clear_writesIn : WritesIn textMemory c c.clear := by
  have hb : WritesIn textMemory c ((c.blank.setScreenPos 0 0).updateCursorLoc 0 0) :=
    blank_writesIn.congr (by simp only [updateCursorLoc, setScreenPos])
      (by simp only [updateCursorLoc, setScreenPos])
  exact hb.trans (puts_writesIn (home_onScreen (c := c.blank)) _)

end Console

end ApollOS
