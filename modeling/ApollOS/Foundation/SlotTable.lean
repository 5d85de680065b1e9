import Mathlib.Data.Fin.Basic
import Mathlib.Data.List.FinRange
import Mathlib.Logic.Function.Basic
import Mathlib.Order.Bounds.Basic

namespace ApollOS.SlotTable

open Function

variable {n lo : ℕ} {α : Type*} {i j : Fin n} {x : α}

/-- A table of `n` slots, each free or with an entry. -/
abbrev Slots (n : ℕ) (α : Type*) := Fin n → Option α

/-- What one operation does to a table. -/
inductive Use (n : ℕ) (α : Type*)
  | keep
  | take (i : Fin n) (x : α)
  | change (i : Fin n) (x : α)
  | release (i : Fin n)

def free (lo : ℕ) (t : Slots n α) : Set (Fin n) := {i | lo ≤ i.val ∧ t i = none}

namespace Use

variable {u : Use n α} {t : Slots n α}

def apply : Use n α → Slots n α → Slots n α
  | keep, t => t
  | take i x, t => update t i (some x)
  | change i x, t => update t i (some x)
  | release i, t => update t i none

/-- The lowest free slot is taken, and only entries are changed or released. -/
def Legal (lo : ℕ) (t : Slots n α) : Use n α → Prop
  | keep => True
  | take i _ => IsLeast (free lo t) i
  | change i _ => (t i).isSome
  | release i => (t i).isSome

/-- The slot whose entry an operation is about. -/
def About (i : Fin n) : Use n α → Prop
  | keep => False
  | take _ _ => False
  | change j _ => j = i
  | release j => j = i

theorem apply_other (h : u.Legal lo t) (hi : (t i).isSome) (hu : ¬ u.About i) :
    u.apply t i = t i := by
  cases u with
  | keep => rfl
  | take j x =>
    apply update_of_ne
    intro he
    have hfree : t j = none := h.1.2
    rw [he, hfree] at hi
    cases hi
  | change j x => exact update_of_ne (Ne.symm hu) _ _
  | release j => exact update_of_ne (Ne.symm hu) _ _

theorem isSome_apply (hi : (t i).isSome) (hu : u ≠ .release i) : (u.apply t i).isSome := by
  cases u with
  | keep => exact hi
  | take j x =>
    by_cases hj : i = j
    · simp [apply, hj]
    · simpa [apply, hj] using hi
  | change j x =>
    by_cases hj : i = j
    · simp [apply, hj]
    · simpa [apply, hj] using hi
  | release j =>
    have hj : i ≠ j := by
      intro he
      exact hu (he ▸ rfl)
    simpa [apply, hj] using hi

theorem take_ne (h : Legal lo t (take i x)) (hj : (t j).isSome) : i ≠ j := by
  intro he
  have hfree : t i = none := h.1.2
  rw [he] at hfree
  rw [hfree] at hj
  cases hj

end Use

section Search

variable {p : Fin n → Bool}

theorem find?_finRange_eq_some_iff :
    (List.finRange n).find? p = some i ↔ IsLeast {i | p i = true} i := by
  rw [List.find?_eq_some_iff_getElem]
  constructor
  · intro h
    obtain ⟨hp, m, hm, hi, hbefore⟩ := h
    simp only [List.getElem_finRange] at hi hbefore
    refine ⟨hp, fun j hj ↦ ?_⟩
    by_contra hlt
    have hj' : j.val < m := by
      subst hi
      exact not_le.mp hlt
    have hfalse := hbefore j.val hj'
    simp only [Bool.not_eq_true'] at hfalse
    exact Bool.noConfusion (hfalse.symm.trans hj)
  · intro h
    refine ⟨h.1, i.val, by simp, by simp, fun m hm ↦ ?_⟩
    have hmn : m < n := hm.trans i.isLt
    simp only [List.getElem_finRange, Bool.not_eq_true']
    by_contra hne
    have hle : i ≤ ⟨m, hmn⟩ := h.2 (by simpa using hne)
    exact absurd hm (not_lt.mpr hle)

end Search

end ApollOS.SlotTable
