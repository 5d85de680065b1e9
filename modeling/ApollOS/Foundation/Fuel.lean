import ApollOS.Foundation.CountedLoop

namespace ApollOS.Fuel

variable {α β : Type*} {f g : ℕ → Option α} {k : ℕ → α → Option β} {a a' : α} {b : β}

/-- With enough fuel a computation comes to a result. -/
def Yields (f : ℕ → Option α) (a : α) : Prop := ∃ bound, ∀ fuel ≥ bound, f fuel = some a

theorem yields_some : Yields (fun _ ↦ some a) a := ⟨0, fun _ _ ↦ rfl⟩

theorem Yields.unique (h : Yields f a) (h' : Yields f a') : a = a' := by
  obtain ⟨bound, h⟩ := h
  obtain ⟨bound', h'⟩ := h'
  refine Option.some.inj ((h (max bound bound') (le_max_left _ _)).symm.trans ?_)
  exact h' _ (le_max_right _ _)

theorem yields_succ_iff (hround : ∀ fuel, f (fuel + 1) = g fuel) : Yields f a ↔ Yields g a := by
  constructor
  · rintro ⟨bound, h⟩
    exact ⟨bound, fun fuel hf ↦ (hround fuel).symm.trans (h _ (Nat.le_succ_of_le hf))⟩
  · rintro ⟨bound, h⟩
    refine ⟨bound + 1, fun fuel hf ↦ ?_⟩
    cases fuel with
    | zero => cases hf
    | succ fuel => exact (hround fuel).trans (h fuel (Nat.le_of_succ_le_succ hf))

theorem Yields.of_succ (h : ∀ fuel, f (fuel + 1) = some a) : Yields f a :=
  (yields_succ_iff h).mpr yields_some

theorem Yields.bind_iff (h : Yields f a) :
    Yields (fun fuel ↦ (f fuel).bind (k fuel)) b ↔ Yields (fun fuel ↦ k fuel a) b := by
  obtain ⟨bound, h⟩ := h
  have hgo (fuel : ℕ) (hf : fuel ≥ bound) : (f fuel).bind (k fuel) = k fuel a := by
    rw [h fuel hf, Option.bind_some]
  constructor
  · rintro ⟨bound', h'⟩
    refine ⟨max bound bound', fun fuel hf ↦ ?_⟩
    exact (hgo fuel ((le_max_left _ _).trans hf)).symm.trans (h' fuel ((le_max_right _ _).trans hf))
  · rintro ⟨bound', h'⟩
    refine ⟨max bound bound', fun fuel hf ↦ ?_⟩
    exact (hgo fuel ((le_max_left _ _).trans hf)).trans (h' fuel ((le_max_right _ _).trans hf))

theorem Yields.bind (h : Yields f a) (h' : Yields (fun fuel ↦ k fuel a) b) :
    Yields (fun fuel ↦ (f fuel).bind (k fuel)) b := h.bind_iff.mpr h'

theorem Yields.map (h : Yields f a) (φ : α → β) : Yields (fun fuel ↦ (f fuel).map φ) (φ a) := by
  obtain ⟨bound, h⟩ := h
  exact ⟨bound, fun fuel hf ↦ congrArg (Option.map φ) (h fuel hf)⟩

theorem yields_loop {ι : Type*} {stop : ι → Bool} {next : ι → ι} {i : ι} {n : ℕ}
    (h : CountedLoop.Rounds stop next i n) :
    Yields (fun fuel ↦ CountedLoop.loop stop next fuel i)
      ((List.range n).map fun m ↦ next^[m] i, next^[n] i) :=
  ⟨n + 1, fun _ hf ↦ CountedLoop.loop_eq_some_iff.mpr ⟨n, hf, h, rfl⟩⟩

end ApollOS.Fuel
