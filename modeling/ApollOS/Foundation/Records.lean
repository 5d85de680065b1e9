import Mathlib.Data.List.Basic
import Mathlib.Data.List.Flatten
import Mathlib.Tactic.Ring

namespace ApollOS.Records

variable {α β : Type*} {z : α} {w n : ℕ} {s : ℕ → α} {l l' r : List α} {xs ys : List β} {x : β}
  {f : β → List α}

/-- The list can be read off from the place on where `s` begins. -/
def Spells (s : ℕ → α) (l : List α) : Prop := ∀ i (h : i < l.length), s i = l[i]

/-- A record in a field of `w` places, filled up with `z`. -/
def field (z : α) (w : ℕ) (r : List α) : List α := r ++ List.replicate (w - r.length) z

theorem length_field (h : r.length ≤ w) : (field z w r).length = w := by
  rw [field, List.length_append, List.length_replicate]
  omega

theorem length_flatMap_of (h : ∀ x ∈ xs, (f x).length = w) :
    (xs.flatMap f).length = xs.length * w := by
  induction xs with
  | nil => simp
  | cons x xs ih =>
    rw [List.flatMap_cons, List.length_append, h x List.mem_cons_self,
      ih fun y hy ↦ h y (List.mem_cons_of_mem x hy), List.length_cons, Nat.succ_mul, Nat.add_comm]

namespace Spells

theorem left (h : Spells s (l ++ l')) : Spells s l := by
  intro i hi
  rw [h i (by rw [List.length_append]; omega), List.getElem_append_left hi]

theorem right (h : Spells s (l ++ l')) : Spells (fun i ↦ s (l.length + i)) l' := by
  intro i hi
  have hsum : l.length + i < (l ++ l').length := by
    rw [List.length_append]
    omega
  refine (h (l.length + i) hsum).trans ?_
  simp only [List.getElem_append_right (Nat.le_add_right _ _), Nat.add_sub_cancel_left]

theorem right_at (h : Spells s (l ++ l')) (hl : l.length = n) : Spells (fun i ↦ s (n + i)) l' := by
  subst hl
  exact h.right

theorem record (h : Spells s (field z w r)) : Spells s r := h.left

theorem blank (h : Spells s (field z w r)) {i : ℕ} (hi : r.length ≤ i) (hw : i < w) : s i = z := by
  obtain ⟨j, rfl⟩ := Nat.exists_eq_add_of_le hi
  have hj : j < (List.replicate (w - r.length) z).length := by
    rw [List.length_replicate]
    omega
  exact (h.right j hj).trans (List.getElem_replicate hj)

/-- The records that come before one take up what they take up. -/
theorem part (h : Spells s ((xs ++ x :: ys).flatMap f)) :
    Spells (fun i ↦ s ((xs.flatMap f).length + i)) (f x) := by
  rw [List.flatMap_append, List.flatMap_cons] at h
  exact h.right.left

theorem table (h : Spells s (xs.flatMap f)) (hf : ∀ x ∈ xs, (f x).length = w) {i : ℕ}
    (hi : i < xs.length) : Spells (fun j ↦ s (i * w + j)) (f xs[i]) := by
  have hsplit : xs = xs.take i ++ xs[i] :: xs.drop (i + 1) := by
    rw [List.getElem_cons_drop, List.take_append_drop]
  have hlen : ((xs.take i).flatMap f).length = i * w := by
    rw [length_flatMap_of fun x hx ↦ hf x (List.mem_of_mem_take hx), List.length_take,
      Nat.min_eq_left hi.le]
  rw [hsplit] at h
  have hpart := h.part
  rwa [hlen] at hpart

theorem table_range {f : ℕ → List α} (h : Spells s ((List.range n).flatMap f))
    (hf : ∀ i < n, (f i).length = w) {i : ℕ} (hi : i < n) :
    Spells (fun j ↦ s (i * w + j)) (f i) := by
  have htable := h.table (fun i hi ↦ hf i (List.mem_range.mp hi)) (i := i)
    (by rwa [List.length_range])
  rwa [List.getElem_range] at htable

end Spells

end ApollOS.Records
