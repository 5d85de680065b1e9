import ApollOS.Files.Names
import ApollOS.Foundation.Fuel
import ApollOS.Programs.Grep
import Mathlib.Data.List.GetD
import Mathlib.Data.List.Infix

namespace ApollOS

open Function Fuel

variable {s s₁ : Ptr} {s₂ f : ℕ → UInt8} {text l pat : List UInt8} {c : UInt8} {i j : ℕ}

/-- Behind a pointer there is a string. -/
structure Spells (s : Ptr) (text : List UInt8) : Prop where
  bytes : ∀ (i : ℕ) (h : i < text.length), s i = some text[i]
  stop : s text.length = some 0
  nonzero : 0 ∉ text

theorem Spells.of_points (h : Points f text) : Spells (fun i ↦ some (f i)) text where
  bytes i hi := by
    rw [h.agrees i hi.le, cstr, List.getD_eq_getElem _ _ hi]
  stop := by
    rw [h.agrees _ le_rfl, cstr, List.getD_eq_default _ _ le_rfl]
  nonzero := h.nonzero

theorem Spells.tail (h : Spells s (c :: l)) : Spells (fun i ↦ s (i + 1)) l where
  bytes i hi := h.bytes (i + 1) (Nat.succ_lt_succ hi)
  stop := h.stop
  nonzero hmem := h.nonzero (List.mem_cons_of_mem c hmem)

theorem spells_message (h : 0 ∉ text) : Spells (UserCalls.message text) text :=
  .of_points ⟨h, fun _ _ ↦ rfl⟩

section Strings

theorem strlen_from (h : Spells s text) (hi : i ≤ text.length) :
    Yields (fun fuel ↦ ece391Strlen s fuel i) text.length := by
  generalize hn : text.length - i = n
  induction n generalizing i with
  | zero =>
    have he : i = text.length := by omega
    subst he
    refine .of_succ fun fuel ↦ ?_
    rw [ece391Strlen, h.stop]
    rfl
  | succ n ih =>
    have hlt : i < text.length := by omega
    have hne : text[i] ≠ 0 := fun he ↦ h.nonzero (he ▸ List.getElem_mem hlt)
    refine (yields_succ_iff fun fuel ↦ ?_).mpr (ih hlt (by omega))
    rw [ece391Strlen, h.bytes i hlt, Option.bind_eq_bind, Option.bind_some, if_neg hne]

theorem strlen_yields (h : Spells s text) : Yields (fun fuel ↦ ece391Strlen s fuel 0) text.length :=
  strlen_from h (Nat.zero_le _)

theorem mapM_some {α β : Type} {f : α → Option β} {g : α → β} {xs : List α}
    (h : ∀ x ∈ xs, f x = some (g x)) : xs.mapM f = some (xs.map g) := by
  induction xs with
  | nil => rfl
  | cons x xs ih =>
    rw [List.mapM_cons, h x List.mem_cons_self, ih fun y hy ↦ h y (List.mem_cons_of_mem x hy)]
    rfl

theorem mapM_range (h : Spells s text) : (List.range text.length).mapM s = some text := by
  have hbytes : ∀ i ∈ List.range text.length, s i = some (text.getD i 0) := by
    intro i hi
    rw [h.bytes i (List.mem_range.mp hi), List.getD_eq_getElem _ _ (List.mem_range.mp hi)]
  rw [mapM_some hbytes, FixedField.map_getD_range le_rfl, List.take_length]

theorem shift_succ {γ : Type} (f : ℕ → γ) :
    (fun j ↦ f (i + (j + 1))) = fun j ↦ f (i + 1 + j) := by
  funext j
  rw [Nat.add_assoc, Nat.add_comm 1 j]

theorem toNat_sub_ne_zero {c₁ c₂ : UInt8} (h : c₁ ≠ c₂) : (c₁.toNat : ℤ) - c₂.toNat ≠ 0 := by
  intro he
  exact h (UInt8.toNat_inj.mp (by omega))

/-- As many bytes as the pattern has are compared, but none behind the end of the string. -/
theorem strncmp_prefix (h : Spells (fun j ↦ s₁ (i + j)) l)
    (hpat : Points (fun j ↦ s₂ (i + j)) pat) :
    ∃ r, ece391Strncmp s₁ (fun j ↦ some (s₂ j)) pat.length i = some r ∧ (r = 0 ↔ pat <+: l) := by
  induction pat generalizing l i with
  | nil => exact ⟨0, rfl, iff_of_true rfl List.nil_prefix⟩
  | cons p pat ih =>
    have hp : s₂ i = p := hpat.head
    rw [List.length_cons, ece391Strncmp, hp]
    cases l with
    | nil =>
      have hstop : s₁ i = some 0 := h.stop
      have hne : (0 : UInt8) ≠ p := hpat.head_ne_zero.symm
      refine ⟨_, ?_, iff_of_false (toNat_sub_ne_zero hne) (by simp)⟩
      rw [hstop]
      exact if_neg hne
    | cons c l =>
      have hc : s₁ i = some c := h.bytes 0 (Nat.succ_pos _)
      have hcne : c ≠ 0 := fun he ↦ h.nonzero (he ▸ List.mem_cons_self)
      rw [List.cons_prefix_cons, hc, Option.bind_eq_bind, Option.bind_some, Option.bind_some]
      by_cases heq : c = p
      · rw [if_pos heq]
        cases pat with
        | nil => exact ⟨0, if_pos (.inr rfl), iff_of_true rfl ⟨heq.symm, List.nil_prefix⟩⟩
        | cons p' pat =>
          have hrest := h.tail
          have hpat' := hpat.tail
          rw [shift_succ s₁] at hrest
          rw [shift_succ s₂] at hpat'
          obtain ⟨r, hr, hiff⟩ := ih hrest hpat'
          refine ⟨r, ?_, hiff.trans (and_iff_right heq.symm).symm⟩
          rw [if_neg (by simp [hcne]), hr]
      · rw [if_neg heq]
        exact ⟨_, rfl, iff_of_false (toNat_sub_ne_zero heq) fun hpre ↦ heq hpre.1.symm⟩

end Strings

namespace LineBuffer

variable {data : LineBuffer} {dst src k lineEnd last : ℕ}

/-- The bytes of the buffer from `i` on. -/
def Holds (data : LineBuffer) (i : ℕ) (l : List UInt8) : Prop :=
  ∀ (j : ℕ) (h : j < l.length), data (i + j) = l[j]

theorem Holds.head (h : data.Holds i (c :: l)) : data i = c := h 0 (Nat.succ_pos _)

theorem Holds.tail (h : data.Holds i (c :: l)) : data.Holds (i + 1) l := by
  intro j hj
  rw [Nat.add_assoc, Nat.add_comm 1 j]
  exact h (j + 1) (Nat.succ_lt_succ hj)

theorem holds_cons (hc : data i = c) (h : data.Holds (i + 1) l) : data.Holds i (c :: l) := by
  intro j hj
  cases j with
  | zero => exact hc
  | succ j =>
    have hbyte := h j (Nat.lt_of_succ_lt_succ hj)
    rw [Nat.add_assoc, Nat.add_comm 1 j] at hbyte
    exact hbyte

theorem Holds.left {r : List UInt8} (h : data.Holds i (l ++ r)) : data.Holds i l := by
  intro j hj
  rw [h j (by rw [List.length_append]; omega), List.getElem_append_left hj]

theorem Holds.right {r : List UInt8} (h : data.Holds i (l ++ r)) :
    data.Holds (i + l.length) r := by
  intro j hj
  rw [Nat.add_assoc, h (l.length + j) (by rw [List.length_append]; omega),
    List.getElem_append_right (Nat.le_add_right _ _)]
  simp only [Nat.add_sub_cancel_left]

theorem Holds.update (h : data.Holds i l) (hk : k < i ∨ i + l.length ≤ k) :
    LineBuffer.Holds (update data k c) i l := by
  intro j hj
  rw [update_of_ne (by omega)]
  exact h j hj

theorem load_eq (hi : i ≤ bufSize) : data.load i = some (data i) := if_pos (Nat.lt_succ_of_le hi)

theorem store_eq (hi : i ≤ bufSize) : data.store i c = some (update data i c) :=
  if_pos (Nat.lt_succ_of_le hi)

theorem Holds.spells (h : data.Holds i l) (hend : data (i + l.length) = 0) (hnul : 0 ∉ l)
    (hfit : i + l.length ≤ bufSize) : Spells (data.ptr i) l where
  bytes j hj := by rw [ptr, load_eq (by omega), h j hj]
  stop := by rw [ptr, load_eq hfit, hend]
  nonzero := hnul

theorem findEnd_yields (h : data.Holds i l) (hline : '\n'.toUInt8 ∉ l)
    (hle : i + l.length ≤ last) (hlast : last ≤ bufSize)
    (hend : i + l.length = last ∨ data (i + l.length) = '\n'.toUInt8) :
    Yields (fun fuel ↦ data.findEnd last fuel i) (i + l.length) := by
  induction l generalizing i with
  | nil =>
    refine .of_succ fun fuel ↦ ?_
    rw [List.length_nil, Nat.add_zero] at *
    rw [findEnd]
    split_ifs with hlt
    · rw [load_eq (by omega)]
      exact if_neg (not_not.mpr (hend.resolve_left (by omega)))
    · rfl
  | cons c l ih =>
    have hlen : i + (c :: l).length = i + 1 + l.length := by rw [List.length_cons]; omega
    rw [hlen] at hle hend ⊢
    have hne : c ≠ '\n'.toUInt8 := fun he ↦ hline (he ▸ List.mem_cons_self)
    have hrest := ih h.tail (fun hmem ↦ hline (List.mem_cons_of_mem c hmem)) hle hend
    refine (yields_succ_iff fun fuel ↦ ?_).mpr hrest
    rw [findEnd, if_pos (by omega), load_eq (by omega), h.head]
    exact if_pos hne

/-- A string is copied towards the beginning of the buffer, though the places overlap. -/
theorem strcpy_yields (h : data.Holds src l) (hend : data (src + l.length) = 0) (hnul : 0 ∉ l)
    (hfit : src + l.length ≤ bufSize) (hlt : dst < src) :
    ∃ data', Yields (fun fuel ↦ ece391Strcpy fuel data dst src) data' ∧ data'.Holds dst l ∧
      ∀ j, j < dst ∨ dst + l.length < j → data' j = data j := by
  induction l generalizing data dst src with
  | nil =>
    rw [List.length_nil, Nat.add_zero] at hend hfit
    refine ⟨Function.update data dst 0, .of_succ fun fuel ↦ ?_, fun j hj ↦ absurd hj (by simp), ?_⟩
    · rw [ece391Strcpy, load_eq hfit, hend, Option.bind_eq_bind, Option.bind_some,
        store_eq (by omega)]
      rfl
    · intro j hj
      rw [List.length_nil] at hj
      exact update_of_ne (by omega) _ _
  | cons c l ih =>
    rw [List.length_cons] at hend hfit
    have hne : c ≠ 0 := fun he ↦ hnul (he ▸ List.mem_cons_self)
    have hlen : src + 1 + l.length = src + (l.length + 1) := by omega
    have hrest : LineBuffer.Holds (Function.update data dst c) (src + 1) l :=
      h.tail.update (.inl (by omega))
    have hstop : Function.update data dst c (src + 1 + l.length) = 0 := by
      rw [update_of_ne (by omega), hlen, hend]
    obtain ⟨data', hcopy, hholds, hframe⟩ := ih hrest hstop
      (fun hmem ↦ hnul (List.mem_cons_of_mem c hmem)) (by omega) (Nat.succ_lt_succ hlt)
    refine ⟨data', (yields_succ_iff fun fuel ↦ ?_).mpr hcopy, holds_cons ?_ hholds, ?_⟩
    · rw [ece391Strcpy, load_eq (by omega), h.head, Option.bind_eq_bind, Option.bind_some,
        store_eq (by omega)]
      exact if_pos hne
    · rw [hframe dst (.inl (Nat.lt_succ_self _)), update_self]
    · intro j hj
      rw [List.length_cons] at hj
      rw [hframe j (by omega), update_of_ne (by omega)]

/-- For visible characters it makes no difference that `char` is signed. -/
theorem toInt_toInt8 (hc : c < 128) {p : UInt8} (h : p = c) : p.toInt8.toInt = c.toNat := by
  subst h
  have hlt : p.toNat < 128 := UInt8.lt_iff_toNat_lt.mp hc
  have hbits : p.toInt8.toInt = p.toBitVec.toInt := rfl
  rw [hbits, BitVec.toInt_eq_toNat_of_lt (by simpa using (by omega : 2 * p.toNat < 2 ^ 8))]
  rfl

theorem search_yields (h : data.Holds i l) (hend : data (i + l.length) = 0) (hnul : 0 ∉ l)
    (hascii : ∀ c ∈ l, c < 128) (hfit : i + l.length ≤ bufSize) (hpat : Points f pat)
    (hne : pat ≠ []) :
    Yields (fun fuel ↦ data.search f pat.length (i + l.length) fuel i) (decide (pat <:+: l)) := by
  induction l generalizing i with
  | nil =>
    have hno : ¬ pat <:+: [] := fun hin ↦ hne (List.infix_nil.mp hin)
    refine .of_succ fun fuel ↦ ?_
    rw [search, if_neg (by simp), decide_eq_false hno]
  | cons c l ih =>
    have hlen : i + (c :: l).length = i + 1 + l.length := by rw [List.length_cons]; omega
    have hnul' : 0 ∉ l := fun hmem ↦ hnul (List.mem_cons_of_mem c hmem)
    have hrest := ih h.tail (hlen ▸ hend) hnul' (fun x hx ↦ hascii x (List.mem_cons_of_mem c hx))
      (hlen ▸ hfit)
    have hpat' : Points (fun j ↦ f (0 + j)) pat := by simpa using hpat
    have hspells : Spells (fun j ↦ data.ptr i (0 + j)) (c :: l) := by
      simpa using h.spells hend hnul hfit
    obtain ⟨r, hr, hstarts⟩ := strncmp_prefix hspells hpat'
    have hfound : pat <:+: c :: l ↔ r = 0 ∨ pat <:+: l := by
      rw [List.infix_cons_iff, hstarts]
    have hround (fuel : ℕ) : data.search f pat.length (i + (c :: l).length) (fuel + 1) i =
        if (f 0).toInt8.toInt = c.toNat ∧ r = 0 then some true
        else data.search f pat.length (i + 1 + l.length) fuel (i + 1) := by
      rw [search, if_pos (by simp), load_eq (by omega), h.head, hr, hlen]
      by_cases hfirst : (f 0).toInt8.toInt = c.toNat
      · by_cases hzero : r = 0 <;> simp [hfirst, hzero]
      · simp [hfirst]
    by_cases hzero : r = 0
    · have hfirst : (f 0).toInt8.toInt = c.toNat := by
        obtain ⟨p, pat', rfl⟩ := List.exists_cons_of_ne_nil hne
        have hp : p = c := (List.cons_prefix_cons.mp (hstarts.mp hzero)).1
        exact toInt_toInt8 (hascii c List.mem_cons_self) (hpat.head.trans hp)
      rw [decide_eq_true (hfound.mpr (.inl hzero))]
      exact .of_succ fun fuel ↦ (hround fuel).trans (if_pos ⟨hfirst, hzero⟩)
    · have hlater : decide (pat <:+: c :: l) = decide (pat <:+: l) :=
        decide_eq_decide.mpr (hfound.trans (or_iff_right hzero))
      rw [hlater]
      refine (yields_succ_iff fun fuel ↦ ?_).mpr hrest
      rw [hround, if_neg fun hboth ↦ hzero hboth.2]

end LineBuffer

end ApollOS
