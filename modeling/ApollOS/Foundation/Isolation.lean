import ApollOS.Foundation.Runs

namespace ApollOS.Isolation

open Runs

variable {σ τ ε β : Type*}

section Purge

variable (step : σ → ε → Option σ) (own : σ → ε → Bool) (out : σ → ε → List β)

/-- The events of a run that an observer takes part in. -/
def purge (s : σ) : List ε → List ε
  | [] => []
  | e :: es =>
    match step s e with
    | none => []
    | some s' => if own s e then e :: purge s' es else purge s' es

def outputs (s : σ) : List ε → List β
  | [] => []
  | e :: es =>
    match step s e with
    | none => []
    | some s' => if own s e then out s e ++ outputs s' es else outputs s' es

end Purge

def aloneOutputs (alone : τ → ε → τ) (out : τ → ε → List β) (a : τ) : List ε → List β
  | [] => []
  | e :: es => out a e ++ aloneOutputs alone out (alone a e) es

variable {step : σ → ε → Option σ} {own : σ → ε → Bool} {out : σ → ε → List β}
  {alone : τ → ε → τ} {out' : τ → ε → List β} {R : σ → τ → Prop} {G : σ → ε → Prop}
  {s : σ} {a : τ} {es es' : List ε}

/-- The observer's own steps are the same alone, and those of others do not matter. -/
structure Unwinds (step : σ → ε → Option σ) (own : σ → ε → Bool) (out : σ → ε → List β)
    (alone : τ → ε → τ) (out' : τ → ε → List β) (R : σ → τ → Prop) (G : σ → ε → Prop) : Prop where
  mine : ∀ s a e s', R s a → G s e → step s e = some s' → own s e = true →
    R s' (alone a e) ∧ out s e = out' a e
  others : ∀ s a e s', R s a → step s e = some s' → own s e = false → R s' a

/-- Then what is seen in a run is what is seen alone, given the observer's own
events. -/
theorem Unwinds.outputs_eq (h : Unwinds step own out alone out' R G) (hs : R s a)
    (hG : ∀ t e, Visits step s es t e → G t e) :
    outputs step own out s es = aloneOutputs alone out' a (purge step own s es) := by
  induction es generalizing s a with
  | nil => rfl
  | cons e es ih =>
    cases hstep : step s e with
    | none => simp only [outputs, purge, hstep, aloneOutputs]
    | some s' =>
      have hG' := fun t f hv ↦ hG t f (Visits.later hstep hv)
      cases hown : own s e with
      | true =>
        obtain ⟨hs', hout⟩ := h.mine s a e s' hs (hG s e .here) hstep hown
        have hrest := ih hs' hG'
        simp only [outputs, purge, hstep, hown, if_true, aloneOutputs, hout, hrest]
      | false =>
        have hrest := ih (h.others s a e s' hs hstep hown) hG'
        simp only [outputs, purge, hstep, hown, Bool.false_eq_true, if_false, hrest]

theorem Unwinds.outputs_congr (h : Unwinds step own out alone out' R G) (hs : R s a)
    (hG : ∀ t e, Visits step s es t e → G t e) (hG' : ∀ t e, Visits step s es' t e → G t e)
    (hown : purge step own s es = purge step own s es') :
    outputs step own out s es = outputs step own out s es' := by
  rw [h.outputs_eq hs hG, h.outputs_eq hs hG', hown]

end ApollOS.Isolation
