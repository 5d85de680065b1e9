import Mathlib.Data.Int.Notation
import Mathlib.Data.List.Basic

namespace ApollOS.LineEditor

variable {α : Type*}

inductive Edit (α : Type*)
  | insert (a : α)
  | erase
  | clear
  | complete

/-- A line being edited, and the lines completed so far. -/
structure Editor (α : Type*) where
  line : List α
  completed : List (List α)

def Editor.start : Editor α := ⟨[], []⟩

/-- A full line takes no further characters. -/
def Editor.apply (capacity : ℕ) (e : Editor α) : Edit α → Editor α
  | .insert a => if e.line.length < capacity then { e with line := e.line ++ [a] } else e
  | .erase => { e with line := e.line.dropLast }
  | .clear => { e with line := [] }
  | .complete => ⟨[], e.completed ++ [e.line]⟩

variable {capacity : ℕ} {e : Editor α} {x : Edit α}

/-- A reader takes the completed lines in order, each cut to the length it asks for. -/
def Delivers (completed : List (List α)) (reads : List (ℤ × List α)) : Prop :=
  ∀ (i : ℕ) (n : ℤ) (bytes : List α), reads[i]? = some (n, bytes) →
    ∃ line : List α, completed[i]? = some line ∧ bytes = line.take n.toNat

theorem Delivers.nil : Delivers (α := α) [] [] := by
  intro i n bytes h
  simp at h

theorem Delivers.complete {completed : List (List α)} {reads : List (ℤ × List α)} {l : List α}
    (h : Delivers completed reads) : Delivers (completed ++ [l]) reads := by
  intro i n bytes hi
  obtain ⟨line, hline, hbytes⟩ := h i n bytes hi
  have hlt := List.getElem?_eq_some_iff.mp hline
  exact ⟨line, (List.getElem?_append_left hlt.1).trans hline, hbytes⟩

theorem Delivers.read {completed : List (List α)} {reads : List (ℤ × List α)} {l : List α} {n : ℤ}
    (h : Delivers completed reads) (hlen : reads.length = completed.length) :
    Delivers (completed ++ [l]) (reads ++ [(n, l.take n.toNat)]) := by
  intro i m bytes hi
  by_cases hlt : i < reads.length
  · rw [List.getElem?_append_left hlt] at hi
    exact h.complete i m bytes hi
  · obtain rfl : i = reads.length := by
      have hlt' := (List.getElem?_eq_some_iff.mp hi).1
      rw [List.length_append, List.length_singleton] at hlt'
      omega
    rw [List.getElem?_concat_length] at hi
    obtain ⟨rfl, rfl⟩ := Prod.mk.inj (Option.some.inj hi)
    exact ⟨l, by rw [hlen, List.getElem?_concat_length], rfl⟩

end ApollOS.LineEditor
