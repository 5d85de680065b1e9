import Mathlib.Data.List.Nodup
import Mathlib.Order.Nat

namespace ApollOS

variable {α : Type*} {next next' : α → α} {p q : α} {l : List α}

/-- Following `next` from `p` visits exactly the nodes of the list, the last of
which is its own successor and the only one that is. -/
inductive Chain (next : α → α) : α → List α → Prop
  | root {p : α} : next p = p → Chain next p [p]
  | link {p : α} {l : List α} : next p ≠ p → Chain next (next p) l → Chain next p (p :: l)

namespace Chain

theorem exists_tail (h : Chain next p l) : ∃ l', l = p :: l' := by
  cases h with
  | root => exact ⟨[], rfl⟩
  | link => exact ⟨_, rfl⟩

theorem start_mem (h : Chain next p l) : p ∈ l := by
  obtain ⟨l', rfl⟩ := h.exists_tail
  exact List.mem_cons_self

theorem length_pos (h : Chain next p l) : 0 < l.length :=
  List.length_pos_of_mem h.start_mem

theorem congr (h : Chain next p l) (he : ∀ q ∈ l, next' q = next q) : Chain next' p l := by
  induction h with
  | root hp => exact .root ((he _ List.mem_cons_self).trans hp)
  | @link p l hp h ih =>
    have hpe : next' p = next p := he p List.mem_cons_self
    refine .link (hpe ▸ hp) ?_
    rw [hpe]
    exact ih fun q hq ↦ he q (List.mem_cons_of_mem p hq)

theorem congr_iff (he : ∀ q, next' q = next q) : Chain next' p l ↔ Chain next p l :=
  ⟨fun h ↦ h.congr fun q _ ↦ (he q).symm, fun h ↦ h.congr fun q _ ↦ he q⟩

theorem tail (h : Chain next p (p :: l)) (hl : l ≠ []) : next p ≠ p ∧ Chain next (next p) l := by
  cases h with
  | root => exact absurd rfl hl
  | link hp h => exact ⟨hp, h⟩

theorem next_of_singleton (h : Chain next p [p]) : next p = p := by
  cases h with
  | root hp => exact hp
  | link _ h => exact absurd h.length_pos (by simp)

theorem next_mem (h : Chain next p l) (hq : q ∈ l) : next q ∈ l := by
  induction h with
  | root hp =>
    obtain rfl := List.mem_singleton.mp hq
    exact List.mem_singleton.mpr hp
  | @link p l hp h ih =>
    rcases List.mem_cons.mp hq with rfl | hq
    · exact List.mem_cons_of_mem _ h.start_mem
    · exact List.mem_cons_of_mem _ (ih hq)

theorem next_ne_head (h : Chain next p l) (hnd : l.Nodup) (hq : q ∈ l) (hne : next q ≠ q) :
    next q ≠ p := by
  cases h with
  | root hp =>
    obtain rfl := List.mem_singleton.mp hq
    exact absurd hp hne
  | link hp h =>
    rcases List.mem_cons.mp hq with rfl | hq
    · exact hne
    · exact fun heq ↦ (List.nodup_cons.mp hnd).1 (heq ▸ h.next_mem hq)

end Chain

end ApollOS
