import ApollOS.Foundation.Words

namespace ApollOS.WordStack

open Words

variable {mem mem' : Bytes} {sp v a b : UInt32} {l l' : List UInt32} {n : ℕ}

/-- Where the top of the stack is after the words of a list were pushed. -/
def lowered (sp : UInt32) : List UInt32 → UInt32
  | [] => sp
  | _ :: l => lowered sp l - 4

/-- Memory after the words of a list were pushed, the last one first. -/
def pushed (mem : Bytes) (sp : UInt32) : List UInt32 → Bytes
  | [] => mem
  | v :: l => store (pushed mem sp l) (lowered sp l - 4) v

/-- The words lie on the stack from the top on. -/
def Holds (mem : Bytes) : UInt32 → List UInt32 → Prop
  | _, [] => True
  | sp, v :: l => load mem sp = v ∧ Holds mem (sp + 4) l

/-- The words fit into the address space. -/
def Fits (l : List UInt32) : Prop := 4 * l.length ≤ 2 ^ 32

theorem add_words (sp : UInt32) (n : ℕ) :
    sp + 4 + (4 * n).toUInt32 = sp + (4 * (n + 1)).toUInt32 := by
  have hfour : (4 : ℕ).toUInt32 = 4 := rfl
  rw [Nat.mul_succ]
  simp only [Nat.toUInt32_eq, UInt32.ofNat_add] at hfour ⊢
  rw [hfour]
  grind

theorem lowered_append : lowered sp (l ++ l') = lowered (lowered sp l') l := by
  induction l with
  | nil => rfl
  | cons v l ih => exact congrArg (· - 4) ih

theorem pushed_append : pushed mem sp (l ++ l') = pushed (pushed mem sp l') (lowered sp l') l := by
  induction l with
  | nil => rfl
  | cons v l ih =>
    rw [List.cons_append, pushed, pushed, ih, lowered_append]

theorem lowered_eq : lowered sp l = sp - (4 * l.length).toUInt32 := by
  induction l with
  | nil => simp [lowered]
  | cons v l ih =>
    have hsum := add_words 0 l.length
    rw [lowered, ih, List.length_cons]
    grind

theorem lowered_add (sp : UInt32) (l : List UInt32) :
    lowered sp l + (4 * l.length).toUInt32 = sp := by
  rw [lowered_eq, UInt32.sub_add_cancel]

/-- Pushing leaves alone what lies outside the words pushed. -/
theorem pushed_frame (hl : Fits l) (h : b ∉ span (lowered sp l) (4 * l.length)) :
    pushed mem sp l b = mem b := by
  induction l with
  | nil => rfl
  | cons v l ih =>
    have hfits : 4 + 4 * l.length ≤ 2 ^ 32 := by
      have : 4 * (v :: l).length ≤ 2 ^ 32 := hl
      rw [List.length_cons] at this
      omega
    have htop : lowered sp (v :: l) + (4 : ℕ).toUInt32 = lowered sp l := UInt32.sub_add_cancel _ _
    rw [pushed, store_frame]
    · refine ih (by unfold Fits; omega) fun hb ↦ h ?_
      rw [← htop] at hb
      have hlen : 4 * (v :: l).length - 4 * l.length = 4 := by rw [List.length_cons]; omega
      have hleft := span_left (a := lowered sp (v :: l)) (m := 4 * l.length) hl
        (by rw [List.length_cons]; omega)
      rw [hlen] at hleft
      exact hleft hb
    · exact fun hb ↦ h (span_mono (by rw [List.length_cons]; omega) hb)

namespace Holds

theorem congr (hl : Fits l) (h : Holds mem sp l)
    (hmem : ∀ b ∈ span sp (4 * l.length), mem' b = mem b) : Holds mem' sp l := by
  induction l generalizing sp with
  | nil => trivial
  | cons v l ih =>
    have hlen : 4 * (v :: l).length - 4 * l.length = 4 := by rw [List.length_cons]; omega
    have hleft := span_left (a := sp) (m := 4 * l.length) hl (by rw [List.length_cons]; omega)
    rw [hlen] at hleft
    refine ⟨?_, ih (by unfold Fits at hl ⊢; rw [List.length_cons] at hl; omega) h.2 fun b hb ↦
      hmem b (hleft hb)⟩
    rw [load_congr fun b hb ↦ hmem b (span_mono (by rw [List.length_cons]; omega) hb)]
    exact h.1

theorem pushed (hl : Fits (l' ++ l)) (h : Holds mem sp l) :
    Holds (pushed mem sp l') (lowered sp l') (l' ++ l) := by
  induction l' with
  | nil => exact h
  | cons v l' ih =>
    have hshort : 4 + 4 * (l' ++ l).length ≤ 2 ^ 32 := by
      unfold Fits at hl
      rw [List.cons_append, List.length_cons] at hl
      omega
    have hfits : Fits (l' ++ l) := by
      unfold Fits
      omega
    refine ⟨load_store, ?_⟩
    have htop : lowered sp l' - 4 + 4 = lowered sp l' := UInt32.sub_add_cancel _ _
    rw [lowered, htop]
    refine (ih hfits).congr hfits fun b hb ↦ store_frame ?_
    have hfour : lowered sp l' - 4 + (4 : ℕ).toUInt32 = lowered sp l' := htop
    intro hw
    have hnot := not_mem_span hshort hw
    rw [hfour] at hnot
    exact hnot hb

theorem of_pushed (mem : Bytes) (sp : UInt32) (hl : Fits l) :
    Holds (WordStack.pushed mem sp l) (lowered sp l) l := by
  have hnil : Holds mem sp [] := trivial
  have hfits : Fits (l ++ []) := by rwa [List.append_nil]
  have hpushed := hnil.pushed hfits
  rwa [List.append_nil] at hpushed

end Holds

end ApollOS.WordStack
