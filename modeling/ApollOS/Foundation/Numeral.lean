import Mathlib.Data.Nat.Digits.Lemmas

namespace ApollOS.Numeral

variable {r n d k : ℕ} {ds : List ℕ}

/-- The digits of a number, the highest first; zero has one as well. -/
def digits (r n : ℕ) : List ℕ := if n = 0 then [0] else (Nat.digits r n).reverse

def value (r : ℕ) (ds : List ℕ) : ℕ := Nat.ofDigits r ds.reverse

theorem digits_of_ne_zero (h : n ≠ 0) : digits r n = (Nat.digits r n).reverse := if_neg h

@[simp] theorem value_digits : value r (digits r n) = n := by
  by_cases hn : n = 0
  · subst hn
    exact Nat.ofDigits_singleton
  · rw [digits_of_ne_zero hn, value, List.reverse_reverse, Nat.ofDigits_digits]

theorem digits_ne_nil : digits r n ≠ [] := by
  by_cases hn : n = 0
  · subst hn
    exact List.cons_ne_nil _ _
  · rw [digits_of_ne_zero hn]
    exact List.reverse_ne_nil_iff.mpr (Nat.digits_ne_nil_iff_ne_zero.mpr hn)

theorem lt_of_mem_digits (hr : 1 < r) (h : d ∈ digits r n) : d < r := by
  by_cases hn : n = 0
  · subst hn
    obtain rfl := List.mem_singleton.mp h
    exact Nat.zero_lt_of_lt hr
  · rw [digits_of_ne_zero hn, List.mem_reverse] at h
    exact Nat.digits_lt_base hr h

theorem eq_zero_of_head_digits (h : (digits r n).head? = some 0) : n = 0 := by
  by_contra hn
  have hne : Nat.digits r n ≠ [] := Nat.digits_ne_nil_iff_ne_zero.mpr hn
  rw [digits_of_ne_zero hn, List.head?_reverse, List.getLast?_eq_some_getLast hne] at h
  exact Nat.getLast_digit_ne_zero r hn (Option.some.inj h)

theorem length_digits_le (hr : 1 < r) (hk : 0 < k) (h : n < r ^ k) : (digits r n).length ≤ k := by
  by_cases hn : n = 0
  · subst hn
    exact hk
  · rw [digits_of_ne_zero hn, List.length_reverse]
    exact (Nat.digits_length_le_iff hr n).mpr h

theorem value_padded : value r (List.replicate k 0 ++ ds) = value r ds := by
  rw [value, List.reverse_append, List.reverse_replicate, Nat.ofDigits_append_replicate_zero, value]

end ApollOS.Numeral
