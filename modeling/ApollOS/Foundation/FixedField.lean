import Mathlib.Data.List.TakeWhile
import Mathlib.Order.Bounds.Basic
import Mathlib.Order.Nat

namespace ApollOS.FixedField

variable {α : Type*} [DecidableEq α] {z : α} {n e : ℕ} {s t : ℕ → α} {l : List α}

/-- What a field of `n` places holds: all that comes before the terminator, which a
full field does not have. -/
def content (z : α) (n : ℕ) (s : ℕ → α) : List α := ((List.range n).map s).takeWhile (· ≠ z)

theorem content_zero : content z 0 s = [] := rfl

theorem content_succ :
    content z (n + 1) s = if s 0 = z then [] else s 0 :: content z n fun i ↦ s (i + 1) := by
  rw [content, List.range_succ_eq_map, List.map_cons, List.takeWhile_cons, List.map_map]
  by_cases h : s 0 = z
  · simp [h]
  · simp [h, content, Function.comp_def]

theorem content_succ_eq_iff : content z (n + 1) s = content z (n + 1) t ↔
    s 0 = t 0 ∧ (s 0 = z ∨ content z n (fun i ↦ s (i + 1)) = content z n fun i ↦ t (i + 1)) := by
  rw [content_succ, content_succ]
  by_cases hs : s 0 = z
  · by_cases ht : t 0 = z
    · simp [hs, ht]
    · simp [hs, ht, Ne.symm ht]
  · by_cases ht : t 0 = z
    · simp [hs, ht]
    · simp [hs, ht]

theorem take_content (h : n ≤ e) : (content z e s).take n = content z n s := by
  induction n generalizing s e with
  | zero => rw [content_zero, List.take_zero]
  | succ n ih =>
    obtain ⟨e, rfl⟩ := Nat.exists_eq_succ_of_ne_zero (Nat.ne_zero_of_lt h)
    rw [content_succ, content_succ]
    split_ifs
    · exact List.take_nil
    · rw [List.take_succ_cons, ih (Nat.le_of_succ_le_succ h)]

theorem length_content_le : (content z n s).length ≤ n := by
  have h := (List.takeWhile_prefix (l := (List.range n).map s) fun c ↦ decide (c ≠ z)).length_le
  rwa [List.length_map, List.length_range] at h

theorem content_getD (h : z ∉ l) : content z n (fun i ↦ l.getD i z) = l.take n := by
  induction n generalizing l with
  | zero => rw [content_zero, List.take_zero]
  | succ n ih =>
    rw [content_succ]
    cases l with
    | nil => simp
    | cons c l =>
      have hc : c ≠ z := fun he ↦ h (he ▸ List.mem_cons_self)
      have hl : z ∉ l := fun hz ↦ h (List.mem_cons_of_mem c hz)
      simp only [List.getD_cons_zero, List.getD_cons_succ, if_neg hc, ih hl, List.take_succ_cons]

theorem notMem_content : z ∉ content z n s := by
  intro h
  have hne := List.mem_takeWhile_imp h
  simp at hne

theorem length_content (h : IsLeast {i | s i = z} e) : (content z n s).length = min e n := by
  induction n generalizing s e with
  | zero => rw [content_zero, Nat.min_zero, List.length_nil]
  | succ n ih =>
    rw [content_succ]
    cases e with
    | zero =>
      have hzero : s 0 = z := h.1
      rw [if_pos hzero, Nat.zero_min, List.length_nil]
    | succ e =>
      have hzero : s 0 ≠ z := fun he ↦ absurd (h.2 he) (by simp)
      have hnext : IsLeast {i | s (i + 1) = z} e :=
        ⟨h.1, fun i hi ↦ Nat.le_of_succ_le_succ (h.2 hi)⟩
      rw [if_neg hzero, List.length_cons, ih hnext, Nat.succ_min_succ]

omit [DecidableEq α] in
theorem map_getD_range (hn : n ≤ l.length) :
    (List.range n).map (fun i ↦ l.getD i z) = l.take n := by
  apply List.ext_getElem
  · rw [List.length_map, List.length_range, List.length_take, Nat.min_eq_left hn]
  · intro i hi hi'
    rw [List.length_map, List.length_range] at hi
    simp [List.getElem?_eq_getElem (hi.trans_le hn)]

omit [DecidableEq α] in
theorem isLeast_length_takeWhile {p : α → Bool} (hz : p z = false) :
    IsLeast {i | p (l.getD i z) = false} (l.takeWhile p).length := by
  induction l with
  | nil => exact ⟨by simpa using hz, fun _ _ ↦ Nat.zero_le _⟩
  | cons c l ih =>
    cases hc : p c with
    | false =>
      rw [List.takeWhile_cons, hc]
      exact ⟨hc, fun _ _ ↦ Nat.zero_le _⟩
    | true =>
      rw [List.takeWhile_cons, hc, if_pos rfl, List.length_cons]
      refine ⟨ih.1, fun i hi ↦ ?_⟩
      cases i with
      | zero =>
        have hzero : p c = false := hi
        rw [hc] at hzero
        cases hzero
      | succ i => exact Nat.succ_le_succ (ih.2 hi)

end ApollOS.FixedField
