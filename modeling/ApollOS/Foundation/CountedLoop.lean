import Mathlib.Data.List.Basic
import Mathlib.Logic.Function.Iterate
import Mathlib.Order.Bounds.Basic
import Mathlib.Order.Nat

namespace ApollOS.CountedLoop

variable {ι : Type*} {stop : ι → Bool} {next : ι → ι} {fuel : ℕ} {i : ι} {r : List ι × ι}

/-- A loop over an index: the indices it goes through, and the one at which it stops;
`none` as long as it has not stopped. -/
def loop (stop : ι → Bool) (next : ι → ι) : ℕ → ι → Option (List ι × ι)
  | 0, _ => none
  | fuel + 1, i =>
    if stop i then some ([], i)
    else (loop stop next fuel (next i)).map fun (visited, last) ↦ (i :: visited, last)

def Rounds (stop : ι → Bool) (next : ι → ι) (i : ι) (n : ℕ) : Prop :=
  IsLeast {n | stop (next^[n] i) = true} n

theorem rounds_zero (h : stop i = true) : Rounds stop next i 0 := ⟨h, fun _ _ ↦ Nat.zero_le _⟩

theorem rounds_succ_iff (h : stop i = false) {n : ℕ} :
    Rounds stop next i (n + 1) ↔ Rounds stop next (next i) n := by
  constructor
  · rintro ⟨hstop, hleast⟩
    exact ⟨hstop, fun m hm ↦ Nat.le_of_succ_le_succ (hleast hm)⟩
  · rintro ⟨hstop, hleast⟩
    refine ⟨hstop, fun m hm ↦ ?_⟩
    cases m with
    | zero =>
      have hzero : stop i = true := hm
      rw [h] at hzero
      cases hzero
    | succ m => exact Nat.succ_le_succ (hleast hm)

theorem loop_eq_some_iff : loop stop next fuel i = some r ↔ ∃ n < fuel, Rounds stop next i n ∧
    r = ((List.range n).map fun m ↦ next^[m] i, next^[n] i) := by
  induction fuel generalizing i r with
  | zero => simp [loop]
  | succ fuel ih =>
    rw [loop]
    cases hstop : stop i with
    | true =>
      rw [if_pos rfl]
      constructor
      · intro h
        obtain rfl := Option.some.inj h
        exact ⟨0, Nat.zero_lt_succ _, rounds_zero hstop, rfl⟩
      · rintro ⟨n, -, hn, rfl⟩
        have hzero : n = 0 := Nat.le_zero.mp (hn.2 hstop)
        subst hzero
        rfl
    | false =>
      rw [if_neg (by decide), Option.map_eq_some_iff]
      constructor
      · rintro ⟨⟨visited, last⟩, hloop, rfl⟩
        obtain ⟨n, hn, hrounds, he⟩ := ih.mp hloop
        obtain ⟨rfl, rfl⟩ := Prod.mk.inj he
        refine ⟨n + 1, Nat.succ_lt_succ hn, (rounds_succ_iff hstop).mpr hrounds, ?_⟩
        rw [List.range_succ_eq_map, List.map_cons, List.map_map]
        rfl
      · rintro ⟨n, hn, hrounds, rfl⟩
        cases n with
        | zero =>
          have hzero : stop i = true := hrounds.1
          rw [hstop] at hzero
          cases hzero
        | succ n =>
          refine ⟨_, ih.mpr ⟨n, Nat.lt_of_succ_lt_succ hn, (rounds_succ_iff hstop).mp hrounds, rfl⟩,
            ?_⟩
          rw [List.range_succ_eq_map, List.map_cons, List.map_map]
          rfl

end ApollOS.CountedLoop
