import Mathlib.Algebra.BigOperators.Group.List.Basic
import Mathlib.Algebra.GroupWithZero.Nat
import Mathlib.Data.List.Basic

namespace ApollOS.Reader

variable {α β : Type*} {l : List α} {total n : ℕ} {rs : List (ℕ × List α)}

/-- What a reader gets that asks for `n` items when `total` have been asked for. -/
def chunk (l : List α) (total n : ℕ) : List α := (l.drop total).take n

/-- Every answer is the chunk that follows the ones before. -/
inductive Answers (l : List α) : ℕ → List (ℕ × List α) → Prop
  | nil {total : ℕ} : Answers l total []
  | cons {total n : ℕ} {rs : List (ℕ × List α)} :
    Answers l (total + n) rs → Answers l total ((n, chunk l total n) :: rs)

def position (l : List α) (total : ℕ) : ℕ := min total l.length

theorem chunk_eq_nil (h : l.length ≤ total) : chunk l total n = [] := by
  rw [chunk, List.drop_eq_nil_of_le h, List.take_nil]

theorem chunk_position : chunk l (position l total) n = chunk l total n := by
  rcases Nat.le_total total l.length with h | h
  · rw [position, Nat.min_eq_left h]
  · rw [position, Nat.min_eq_right h, chunk_eq_nil (Nat.le_refl _), chunk_eq_nil h]

theorem position_add : position l total + (chunk l total n).length = position l (total + n) := by
  simp only [position, chunk, List.length_take, List.length_drop]
  omega

theorem chunk_map (f : α → β) : chunk (l.map f) total n = (chunk l total n).map f := by
  simp [chunk]

theorem Answers.append (h : Answers l total rs) :
    Answers l total (rs ++ [(n, chunk l (total + (rs.map Prod.fst).sum) n)]) := by
  induction h with
  | nil => exact .cons .nil
  | cons h ih =>
    rw [List.map_cons, List.sum_cons, ← Nat.add_assoc]
    exact .cons ih

theorem Answers.flatten (h : Answers l total rs) :
    (rs.map Prod.snd).flatten = chunk l total (rs.map Prod.fst).sum := by
  induction h with
  | nil => simp [chunk]
  | cons h ih =>
    simp only [List.map_cons, List.flatten_cons, List.sum_cons, ih]
    rw [chunk, chunk, chunk, List.take_add, List.drop_drop]

theorem Answers.mem (h : Answers l total rs) {r : ℕ × List α} (hr : r ∈ rs) {x : α}
    (hx : x ∈ r.2) : x ∈ l := by
  induction h with
  | nil => cases hr
  | cons h ih =>
    cases hr with
    | head => exact List.mem_of_mem_drop (List.mem_of_mem_take hx)
    | tail _ hr => exact ih hr

/-- The pieces in which a reader gets a list that always asks for `n` items. -/
inductive Pieces (n : ℕ) : List α → List (List α) → Prop
  | nil : Pieces n [] []
  | cons {l : List α} {ls : List (List α)} : l ≠ [] → Pieces n (l.drop n) ls →
    Pieces n l (l.take n :: ls)

theorem Pieces.flatten {ls : List (List α)} (h : Pieces n l ls) : ls.flatten = l := by
  induction h with
  | nil => rfl
  | cons _ _ ih => rw [List.flatten_cons, ih, List.take_append_drop]

end ApollOS.Reader
