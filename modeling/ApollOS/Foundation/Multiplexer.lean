import ApollOS.Foundation.Runs

namespace ApollOS.Multiplexer

open Runs

variable {ι α σ ε : Type*}

/-- One live context shared by many owners, each with a place where its context is
kept while it is not current. -/
structure Mux (ι α : Type*) where
  cur : ι
  live : α
  saved : ι → α

/-- What a step may do to the places: only the current owner's is touched, and if
another owner becomes current, it is left with what was live. -/
structure Step (m m' : Mux ι α) : Prop where
  others : ∀ t ≠ m.cur, m'.saved t = m.saved t
  left : m'.cur ≠ m.cur → m'.saved m.cur = m.live

variable {step : σ → ε → Option σ} {s u u' : σ} {es : List ε} {i : ι} (view : σ → Mux ι α)

theorem saved_of_away
    (hstep : ∀ u e u', Visits step s es u e → step u e = some u' → Step (view u) (view u'))
    (haway : ∀ u, Passes step s es u → (view u).cur ≠ i) (hu : Passes step s es u) :
    (view u).saved i = (view s).saved i := by
  refine guarded_invariant (I := fun u ↦ (view u).saved i = (view s).saved i)
    (G := fun u e ↦ Visits step s es u e) ?_ rfl (fun _ _ hv ↦ hv) hu
  intro u e u' hu hv hs
  have hne := haway u hv.passes
  rw [(hstep u e u' hv hs).others i hne.symm, hu]

theorem saved_of_left (hleave : Step (view u) (view s)) (hne : (view s).cur ≠ (view u).cur)
    (hstep : ∀ u e u', Visits step s es u e → step u e = some u' → Step (view u) (view u'))
    (haway : ∀ v, Passes step s es v → (view v).cur ≠ (view u).cur) (hv : Passes step s es u') :
    (view u').saved (view u).cur = (view u).live :=
  (saved_of_away view hstep haway hv).trans (hleave.left hne)

end ApollOS.Multiplexer
