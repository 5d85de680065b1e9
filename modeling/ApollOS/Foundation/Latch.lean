import ApollOS.Foundation.Runs

namespace ApollOS.Runs

variable {σ ε : Type*} {step : σ → ε → Option σ} {Sets Clears : σ → ε → Prop} {I F : σ → Prop}
  {s s' t : σ} {e : ε} {es : List ε}

/-- An event of the run sets a latch, and none of the later ones clears it. -/
def SetSince (step : σ → ε → Option σ) (Sets Clears : σ → ε → Prop) (s : σ) (es : List ε) : Prop :=
  ∃ pre e post u u', es = pre ++ e :: post ∧ run step s pre = some u ∧ Sets u e ∧
    step u e = some u' ∧ ∀ v f, Visits step u' post v f → ¬ Clears v f

theorem not_setSince_nil : ¬ SetSince step Sets Clears s [] := by
  rintro ⟨pre, e, post, u, u', h, -⟩
  simp at h

theorem setSince_cons (hs : step s e = some s') :
    SetSince step Sets Clears s (e :: es) ↔
      (Sets s e ∧ ∀ v f, Visits step s' es v f → ¬ Clears v f) ∨
        SetSince step Sets Clears s' es := by
  constructor
  · rintro ⟨pre, f, post, u, u', hes, hr, hset, hu, hnone⟩
    cases pre with
    | nil =>
      obtain ⟨rfl, rfl⟩ := List.cons.inj hes
      obtain rfl := Option.some.inj hr
      obtain rfl := Option.some.inj (hs.symm.trans hu)
      exact .inl ⟨hset, hnone⟩
    | cons g pre =>
      obtain ⟨rfl, rfl⟩ := List.cons.inj hes
      obtain ⟨s'', hs', hr⟩ := run_cons_eq_some.mp hr
      obtain rfl := Option.some.inj (hs.symm.trans hs')
      exact .inr ⟨pre, f, post, u, u', rfl, hr, hset, hu, hnone⟩
  · rintro (⟨hset, hnone⟩ | ⟨pre, f, post, u, u', rfl, hr, hset, hu, hnone⟩)
    · exact ⟨[], e, es, s, s', rfl, rfl, hset, hs, hnone⟩
    · exact ⟨e :: pre, f, post, u, u', rfl, run_cons_eq_some.mpr ⟨s', hs, hr⟩, hset, hu, hnone⟩

theorem unvisited_cons {P : σ → ε → Prop} (hs : step s e = some s') :
    (∀ v f, Visits step s (e :: es) v f → ¬ P v f) ↔
      ¬ P s e ∧ ∀ v f, Visits step s' es v f → ¬ P v f := by
  constructor
  · intro h
    exact ⟨h s e .here, fun v f hv ↦ h v f (hv.later hs)⟩
  · rintro ⟨hhere, hrest⟩ v f hv
    rcases visits_next hs hv with ⟨rfl, rfl⟩ | hv
    · exact hhere
    · exact hrest v f hv

/-- If every step sets a latch, clears it or leaves it alone, then it is set at the end of a run
exactly if some event has set it and no later one has cleared it, or if it was set from the start
and no event has cleared it. -/
theorem latch_iff (hI : ∀ s e s', I s → step s e = some s' → I s')
    (hF : ∀ s e s', I s → step s e = some s' → (F s' ↔ Sets s e ∨ F s ∧ ¬ Clears s e))
    (hs : I s) (hr : run step s es = some t) :
    F t ↔ (F s ∧ ∀ v f, Visits step s es v f → ¬ Clears v f) ∨
      SetSince step Sets Clears s es := by
  induction es generalizing s with
  | nil =>
    obtain rfl := Option.some.inj hr
    have hnone : ∀ v f, Visits step s [] v f → ¬ Clears v f := fun v f hv ↦ (visits_nil hv).elim
    simp only [not_setSince_nil, or_false]
    exact (and_iff_left hnone).symm
  | cons e es ih =>
    obtain ⟨s', he, hr⟩ := run_cons_eq_some.mp hr
    rw [ih (hI s e s' hs he) hr, setSince_cons he, unvisited_cons he, hF s e s' hs he]
    tauto

end ApollOS.Runs
