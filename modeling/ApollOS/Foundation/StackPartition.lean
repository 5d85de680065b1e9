import Mathlib.Algebra.BigOperators.Group.Finset.Basic
import Mathlib.Algebra.Order.BigOperators.Group.Finset
import Mathlib.Data.Finset.Union
import Mathlib.Data.Fintype.Basic

namespace ApollOS

open scoped BigOperators

variable {ι α : Type*}

/-- The live slots of a pool are divided among the owners, each of whom keeps
its own as a stack without repetitions. -/
structure StackPartition (live : α → Prop) (held : ι → List α) : Prop where
  nodup : ∀ i, (held i).Nodup
  disjoint : ∀ i j, i ≠ j → (held i).Disjoint (held j)
  cover : ∀ a, live a ↔ ∃ i, a ∈ held i

namespace StackPartition

variable {live : α → Prop} {held : ι → List α} {a : α} {i : ι}

theorem owner_unique (h : StackPartition live held) {j : ι} (hi : a ∈ held i)
    (hj : a ∈ held j) : i = j := by
  by_contra hne
  exact h.disjoint i j hne hi hj

theorem live_of_mem (h : StackPartition live held) (ha : a ∈ held i) : live a :=
  (h.cover a).mpr ⟨i, ha⟩

theorem not_mem_of_fresh (h : StackPartition live held) (ha : ¬ live a) : a ∉ held i :=
  fun hm ↦ ha (h.live_of_mem hm)

theorem congr_live {live' : α → Prop} (h : StackPartition live held)
    (he : ∀ a, live' a ↔ live a) : StackPartition live' held where
  nodup := h.nodup
  disjoint := h.disjoint
  cover a := (he a).trans (h.cover a)

section Update

variable [DecidableEq ι]

theorem push (h : StackPartition live held) (ha : ¬ live a) :
    StackPartition (fun b ↦ live b ∨ b = a) (Function.update held i (a :: held i)) where
  nodup j := by
    by_cases hj : j = i
    · subst hj
      simpa using ⟨h.not_mem_of_fresh ha, h.nodup j⟩
    · simpa [hj] using h.nodup j
  disjoint j k hjk := by
    by_cases hj : j = i
    · subst hj
      simpa [Ne.symm hjk] using ⟨h.not_mem_of_fresh ha, h.disjoint j k hjk⟩
    · by_cases hk : k = i
      · subst hk
        simpa [hj] using ⟨h.not_mem_of_fresh ha, h.disjoint j k hjk⟩
      · simpa [hj, hk] using h.disjoint j k hjk
  cover b := by
    constructor
    · rintro (hb | rfl)
      · obtain ⟨j, hj⟩ := (h.cover b).mp hb
        refine ⟨j, ?_⟩
        by_cases hji : j = i
        · subst hji; simp [hj]
        · simpa [hji] using hj
      · exact ⟨i, by simp⟩
    · rintro ⟨j, hj⟩
      by_cases hji : j = i
      · subst hji
        rcases List.mem_cons.mp (by simpa using hj) with rfl | hj
        · exact .inr rfl
        · exact .inl (h.live_of_mem hj)
      · exact .inl (h.live_of_mem (i := j) (by simpa [hji] using hj))

theorem pop {l : List α} (h : StackPartition live held) (hl : held i = a :: l) :
    StackPartition (fun b ↦ live b ∧ b ≠ a) (Function.update held i l) where
  nodup j := by
    by_cases hj : j = i
    · subst hj
      have hn := h.nodup j
      rw [hl] at hn
      simpa using hn.of_cons
    · simpa [hj] using h.nodup j
  disjoint j k hjk := by
    have hsub (m : ι) : Function.update held i l m ⊆ held m := by
      by_cases hm : m = i
      · subst hm; simp [hl]
      · simp [hm]
    exact fun b hb hb' ↦ h.disjoint j k hjk (hsub j hb) (hsub k hb')
  cover b := by
    have hn := h.nodup i
    rw [hl] at hn
    constructor
    · rintro ⟨hb, hne⟩
      obtain ⟨j, hj⟩ := (h.cover b).mp hb
      refine ⟨j, ?_⟩
      by_cases hji : j = i
      · subst hji
        rw [hl] at hj
        simpa using (List.mem_cons.mp hj).resolve_left hne
      · simpa [hji] using hj
    · rintro ⟨j, hj⟩
      by_cases hji : j = i
      · subst hji
        have hj' : b ∈ l := by simpa using hj
        refine ⟨h.live_of_mem (i := j) (hl ▸ List.mem_cons_of_mem a hj'), ?_⟩
        rintro rfl
        exact (List.nodup_cons.mp hn).1 hj'
      · have hj' : b ∈ held j := by simpa [hji] using hj
        refine ⟨h.live_of_mem hj', ?_⟩
        rintro rfl
        exact hji (h.owner_unique hj' (hl ▸ List.mem_cons_self))

end Update

variable [Fintype ι] [DecidableEq α]

theorem sum_length (h : StackPartition live held) (pool : Finset α)
    (hpool : ∀ a, live a → a ∈ pool) [DecidablePred live] :
    ∑ i, (held i).length = (pool.filter live).card := by
  have hset : pool.filter live = Finset.univ.biUnion fun i ↦ (held i).toFinset := by
    ext a
    simp only [Finset.mem_filter, Finset.mem_biUnion, Finset.mem_univ, true_and, List.mem_toFinset]
    exact ⟨fun ha ↦ (h.cover a).mp ha.2, fun ha ↦ have hl := (h.cover a).mpr ha; ⟨hpool a hl, hl⟩⟩
  rw [hset, Finset.card_biUnion]
  · exact Finset.sum_congr rfl fun i _ ↦ (List.toFinset_card_of_nodup (h.nodup i)).symm
  · intro i _ j _ hij
    exact List.disjoint_toFinset_iff_disjoint.mpr (h.disjoint i j hij)

/-- There is a free slot exactly as long as the held do not fill the pool. -/
theorem exists_free_iff (h : StackPartition live held) (pool : Finset α)
    (hpool : ∀ a, live a → a ∈ pool) [DecidablePred live] :
    (∃ a ∈ pool, ¬ live a) ↔ ∑ i, (held i).length < pool.card := by
  rw [h.sum_length pool hpool]
  constructor
  · rintro ⟨a, ha, hl⟩
    exact Finset.card_lt_card (Finset.filter_ssubset.mpr ⟨a, ha, hl⟩)
  · intro hlt
    by_contra hall
    push Not at hall
    rw [Finset.filter_true_of_mem hall] at hlt
    exact lt_irrefl _ hlt

theorem sum_length_le (h : StackPartition live held) (pool : Finset α)
    (hpool : ∀ a, live a → a ∈ pool) [DecidablePred live] :
    ∑ i, (held i).length ≤ pool.card := by
  rw [h.sum_length pool hpool]
  exact Finset.card_filter_le _ _

end StackPartition

end ApollOS
