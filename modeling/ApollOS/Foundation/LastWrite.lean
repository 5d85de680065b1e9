import Mathlib.Logic.Function.Basic
import Mathlib.Data.List.Induction

namespace ApollOS.LastWrite

open Function

variable {ι α σ ε : Type*} [DecidableEq ι] {start : ι → α} {ws : List (ι × α)} {w : ι × α}

/-- What stands in every cell after a list of writes: the last value written there, or what was
there at the start. -/
def last (start : ι → α) (ws : List (ι × α)) (i : ι) : α :=
  ((ws.filter fun w ↦ w.1 = i).getLast?.map Prod.snd).getD (start i)

theorem last_concat : last start (ws ++ [w]) = update (last start ws) w.1 w.2 := by
  funext i
  by_cases h : w.1 = i
  · subst h
    simp [last, List.filter_append]
  · simp [last, List.filter_append, h, update_of_ne (Ne.symm h)]

/-- If every step writes one of the cells that are looked at, or none of them, then a run shows
in every cell the last value written to it. -/
theorem shows_last {v : σ → ι → α} {step : σ → ε → σ} {write : ε → ι × α} {S : Set ι} {s : σ}
    (hstart : ∀ i ∈ S, v s i = start i)
    (hstep : ∀ s e, ∀ i ∈ S, v (step s e) i = update (v s) (write e).1 (write e).2 i)
    (es : List ε) : ∀ i ∈ S, v (es.foldl step s) i = last start (es.map write) i := by
  induction es using List.reverseRecOn with
  | nil => exact hstart
  | append_singleton es e ih =>
    intro i hi
    rw [List.foldl_append, List.map_append, List.map_singleton, last_concat]
    refine (hstep _ e i hi).trans ?_
    by_cases h : i = (write e).1
    · rw [h, update_self, update_self]
    · rw [update_of_ne h, update_of_ne h]
      exact ih i hi

end ApollOS.LastWrite
