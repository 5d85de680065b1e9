import Mathlib.Logic.Basic
import Mathlib.Data.List.Basic

namespace ApollOS.Runs

variable {σ ε : Type*}

/-- The state after a list of events, if none of them gets stuck. -/
def run (step : σ → ε → Option σ) (s : σ) (es : List ε) : Option σ := es.foldlM step s

/-- A run from `s` comes to `t`, where `e` is the next of its events. -/
def Visits (step : σ → ε → Option σ) (s : σ) (es : List ε) (t : σ) (e : ε) : Prop :=
  ∃ pre post, es = pre ++ e :: post ∧ run step s pre = some t

/-- A run from `s` comes to `t` after some of its events. -/
def Passes (step : σ → ε → Option σ) (s : σ) (es : List ε) (t : σ) : Prop :=
  ∃ pre post, es = pre ++ post ∧ run step s pre = some t

variable {step : σ → ε → Option σ} {s s' t u : σ} {e f : ε} {es fs : List ε}

theorem run_cons : run step s (e :: es) = (step s e).bind fun s' ↦ run step s' es := rfl

theorem run_cons_eq_some :
    run step s (e :: es) = some t ↔ ∃ s', step s e = some s' ∧ run step s' es = some t := by
  rw [run_cons, Option.bind_eq_some_iff]

theorem run_cons_of (hs : step s e = some s') : run step s (e :: es) = run step s' es := by
  rw [run_cons, hs, Option.bind_some]

theorem run_append : run step s (es ++ fs) = (run step s es).bind fun s' ↦ run step s' fs := by
  simp [run, List.foldlM_append, Option.bind_eq_bind]

theorem exists_run (hstep : ∀ s e, ∃ s', step s e = some s') (s : σ) (es : List ε) :
    ∃ t, run step s es = some t := by
  induction es generalizing s with
  | nil => exact ⟨s, rfl⟩
  | cons e es ih =>
    obtain ⟨s', hs⟩ := hstep s e
    obtain ⟨t, ht⟩ := ih s'
    exact ⟨t, run_cons_eq_some.mpr ⟨s', hs, ht⟩⟩

theorem visits_nil : ¬ Visits step s [] t e := by
  rintro ⟨pre, post, h, -⟩
  simp at h

theorem Visits.here : Visits step s (e :: es) s e := ⟨[], es, rfl, rfl⟩

theorem Visits.later (hs : step s f = some s') (h : Visits step s' es t e) :
    Visits step s (f :: es) t e := by
  obtain ⟨pre, post, rfl, hr⟩ := h
  exact ⟨f :: pre, post, rfl, run_cons_eq_some.mpr ⟨s', hs, hr⟩⟩

theorem visits_cons (h : Visits step s (f :: es) t e) :
    (t = s ∧ e = f) ∨ ∃ s', step s f = some s' ∧ Visits step s' es t e := by
  obtain ⟨pre, post, he, hr⟩ := h
  cases pre with
  | nil =>
    obtain ⟨rfl, rfl⟩ := List.cons.inj he
    exact .inl ⟨(Option.some.inj hr).symm, rfl⟩
  | cons g pre =>
    obtain ⟨rfl, rfl⟩ := List.cons.inj he
    obtain ⟨s', hs, hr⟩ := run_cons_eq_some.mp hr
    exact .inr ⟨s', hs, pre, post, rfl, hr⟩

theorem visits_next (hs : step s f = some s') (h : Visits step s (f :: es) t e) :
    (t = s ∧ e = f) ∨ Visits step s' es t e := by
  rcases visits_cons h with hhere | ⟨u, hu, hlater⟩
  · exact .inl hhere
  · obtain rfl := Option.some.inj (hs.symm.trans hu)
    exact .inr hlater

theorem visits_singleton (h : Visits step s [f] t e) : t = s ∧ e = f := by
  rcases visits_cons h with hhere | ⟨s', -, hv⟩
  · exact hhere
  · exact (visits_nil hv).elim

theorem visits_append (hr : run step s es = some t) (h : Visits step s (es ++ fs) u e) :
    Visits step s es u e ∨ Visits step t fs u e := by
  induction es generalizing s with
  | nil =>
    obtain rfl := Option.some.inj hr
    exact .inr h
  | cons g es ih =>
    obtain ⟨s', hs, hr⟩ := run_cons_eq_some.mp hr
    rcases visits_next hs h with ⟨rfl, rfl⟩ | h
    · exact .inl .here
    · rcases ih hr h with h | h
      · exact .inl (h.later hs)
      · exact .inr h

theorem Visits.mem (h : Visits step s es t e) : e ∈ es := by
  obtain ⟨pre, post, rfl, -⟩ := h
  simp

theorem Visits.passes (h : Visits step s es t e) : Passes step s es t := by
  obtain ⟨pre, post, rfl, hr⟩ := h
  exact ⟨pre, e :: post, rfl, hr⟩

theorem Visits.passes_next (h : Visits step s es t e) (ht : step t e = some u) :
    Passes step s es u := by
  obtain ⟨pre, post, rfl, hr⟩ := h
  refine ⟨pre ++ [e], post, by simp, ?_⟩
  rw [run_append, hr, Option.bind_some, run_cons, ht]
  rfl

theorem Passes.visits_or (h : Passes step s es t) :
    (∃ e, Visits step s es t e) ∨ run step s es = some t := by
  obtain ⟨pre, post, rfl, hr⟩ := h
  cases post with
  | nil => exact .inr (by rwa [List.append_nil])
  | cons e post => exact .inl ⟨e, pre, post, rfl, hr⟩

theorem Passes.start : Passes step s es s := ⟨[], es, rfl, rfl⟩

theorem Passes.stop (h : run step s es = some t) : Passes step s es t :=
  ⟨es, [], by simp, h⟩

theorem Passes.later (hs : step s f = some s') (h : Passes step s' es t) :
    Passes step s (f :: es) t := by
  obtain ⟨pre, post, rfl, hr⟩ := h
  exact ⟨f :: pre, post, rfl, run_cons_eq_some.mpr ⟨s', hs, hr⟩⟩

theorem passes_nil (h : Passes step s [] t) : t = s := by
  obtain ⟨pre, post, he, hr⟩ := h
  obtain ⟨rfl, -⟩ := List.append_eq_nil_iff.mp he.symm
  exact (Option.some.inj hr).symm

theorem passes_cons (h : Passes step s (f :: es) t) :
    t = s ∨ ∃ s', step s f = some s' ∧ Passes step s' es t := by
  obtain ⟨pre, post, he, hr⟩ := h
  cases pre with
  | nil => exact .inl (Option.some.inj hr).symm
  | cons g pre =>
    obtain ⟨rfl, rfl⟩ := List.cons.inj he
    obtain ⟨s', hs, hr⟩ := run_cons_eq_some.mp hr
    exact .inr ⟨s', hs, pre, post, rfl, hr⟩

theorem passes_next (hs : step s f = some s') (h : Passes step s (f :: es) t) :
    t = s ∨ Passes step s' es t := by
  rcases passes_cons h with hhere | ⟨u, hu, hlater⟩
  · exact .inl hhere
  · obtain rfl := Option.some.inj (hs.symm.trans hu)
    exact .inr hlater

/-- Two step functions that agree wherever a run comes have that run in common. -/
theorem run_congr {step' : σ → ε → Option σ}
    (h : ∀ u e, Visits step s es u e → step' u e = step u e) : run step' s es = run step s es := by
  induction es generalizing s with
  | nil => rfl
  | cons e es ih =>
    rw [run_cons, run_cons, h s e .here]
    cases hs : step s e with
    | none => rfl
    | some s' => exact ih fun u f hv ↦ h u f (hv.later hs)

theorem visits_congr {step' : σ → ε → Option σ}
    (h : ∀ u e, Visits step s es u e → step' u e = step u e) (hv : Visits step' s es t e) :
    Visits step s es t e := by
  obtain ⟨pre, post, rfl, hr⟩ := hv
  refine ⟨pre, post, rfl, (run_congr fun u f hv ↦ h u f ?_).symm.trans hr⟩
  obtain ⟨pre', post', rfl, hr'⟩ := hv
  exact ⟨pre', post' ++ e :: post, by simp, hr'⟩

/-- The invariant rule: what holds at the start and survives every step
holds at the end of every run. -/
theorem invariant {I : σ → Prop} (hstep : ∀ s e s', I s → step s e = some s' → I s')
    (hs : I s) (hr : run step s es = some t) : I t := by
  induction es generalizing s with
  | nil => exact Option.some.inj hr ▸ hs
  | cons e es ih =>
    obtain ⟨s', he, hr⟩ := run_cons_eq_some.mp hr
    exact ih (hstep s e s' hs he) hr

/-- The invariant rule with a flag that says whether an event of some kind has
happened in the run. -/
theorem invariant_flag {I : σ → Prop → Prop} {R : σ → ε → Prop}
    (hstep : ∀ s e s' d, I s d → step s e = some s' → I s' (d ∨ R s e)) {d : Prop}
    (hs : I s d) (hr : run step s es = some t) :
    I t (d ∨ ∃ u e, Visits step s es u e ∧ R u e) := by
  induction es generalizing s d with
  | nil =>
    obtain rfl := Option.some.inj hr
    have hnone : ¬ ∃ u e, Visits step s [] u e ∧ R u e := fun ⟨_, _, h, _⟩ ↦ visits_nil h
    rwa [or_iff_left hnone |> propext]
  | cons e es ih =>
    obtain ⟨s', he, hr⟩ := run_cons_eq_some.mp hr
    have hflag : ((d ∨ R s e) ∨ ∃ u f, Visits step s' es u f ∧ R u f) =
        (d ∨ ∃ u f, Visits step s (e :: es) u f ∧ R u f) := by
      refine propext ⟨?_, ?_⟩
      · rintro ((hd | hR) | ⟨u, f, hv, hR⟩)
        · exact .inl hd
        · exact .inr ⟨s, e, .here, hR⟩
        · exact .inr ⟨u, f, hv.later he, hR⟩
      · rintro (hd | ⟨u, f, hv, hR⟩)
        · exact .inl (.inl hd)
        · rcases visits_next he hv with ⟨rfl, rfl⟩ | hv
          · exact .inl (.inr hR)
          · exact .inr ⟨u, f, hv, hR⟩
    rw [← hflag]
    exact ih (hstep s e s' d hs he) hr

/-- The invariant rule for runs in which every step meets a guard. -/
theorem guarded_invariant {I : σ → Prop} {G : σ → ε → Prop}
    (hstep : ∀ s e s', I s → G s e → step s e = some s' → I s')
    (hs : I s) (hG : ∀ t e, Visits step s es t e → G t e) (hp : Passes step s es t) : I t := by
  induction es generalizing s with
  | nil => exact passes_nil hp ▸ hs
  | cons e es ih =>
    rcases passes_cons hp with rfl | ⟨s', he, hp⟩
    · exact hs
    · exact ih (hstep s e s' hs (hG s e .here) he) (fun t f h ↦ hG t f (h.later he)) hp

/-- When a guard decides at every step whether a property is kept, the property
holds all along a run exactly if every step of the run meets the guard. The
helper `J` may itself rely on the property having held so far. -/
theorem forall_passes_iff {P J : σ → Prop} {G : σ → ε → Prop}
    (hJ : ∀ s e s', J s → P s → step s e = some s' → J s')
    (hG : ∀ s e s', J s → P s → step s e = some s' → (P s' ↔ G s e))
    (hs : P s) (hj : J s) (hr : run step s es = some t) :
    (∀ u, Passes step s es u → P u) ↔ ∀ u e, Visits step s es u e → G u e := by
  induction es generalizing s with
  | nil => exact ⟨fun _ u e h ↦ (visits_nil h).elim, fun _ u h ↦ passes_nil h ▸ hs⟩
  | cons e es ih =>
    obtain ⟨s', he, hr⟩ := run_cons_eq_some.mp hr
    have hiff := hG s e s' hj hs he
    constructor
    · intro h u f hv
      have hs' : P s' := h s' (Passes.start.later he)
      rcases visits_next he hv with ⟨rfl, rfl⟩ | hv
      · exact hiff.mp hs'
      · exact (ih hs' (hJ s e s' hj hs he) hr).mp (fun u hu ↦ h u (hu.later he)) u f hv
    · intro h u hu
      have hs' : P s' := hiff.mpr (h s e .here)
      rcases passes_next he hu with rfl | hu
      · exact hs
      · exact (ih hs' (hJ s e s' hj hs he) hr).mpr (fun u f hf ↦ h u f (hf.later he)) u hu

end ApollOS.Runs
