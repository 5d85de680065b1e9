import ApollOS.Files.Names
import ApollOS.Foundation.Fuel
import ApollOS.Foundation.Numeral
import ApollOS.Kernel.Printf
import Mathlib.Data.List.GetD

namespace ApollOS

open Fuel Function

variable {s : ℕ → UInt8} {b b' b'' : Buffer} {text rest : List UInt8} {c : UInt8}
  {v w : UInt32} {i j n p r : ℕ}

section Strings

theorem iterate_add_one : (· + 1)^[n] 0 = n := by
  rw [Nat.succ_iterate, Nat.zero_add]

theorem Points.rounds (h : Points s text) :
    CountedLoop.Rounds (fun i ↦ s i = 0) (· + 1) 0 text.length := by
  constructor
  · have hend : s text.length = 0 := by
      rw [h.agrees _ le_rfl, cstr, List.getD_eq_default _ _ le_rfl]
    simpa only [Set.mem_ofPred_eq, iterate_add_one, decide_eq_true_eq] using hend
  · intro n hn
    simp only [Set.mem_ofPred_eq, iterate_add_one, decide_eq_true_eq] at hn
    by_contra hlt
    have hlt : n < text.length := not_le.mp hlt
    rw [h.agrees n hlt.le, cstr, List.getD_eq_getElem _ _ hlt] at hn
    exact h.nonzero (hn ▸ List.getElem_mem hlt)

theorem Points.strlen (h : Points s text) : Yields (fun fuel ↦ strlen fuel s) text.length := by
  have hlen := (yields_loop h.rounds).map fun r ↦ r.2
  rwa [iterate_add_one] at hlen

theorem Points.putsBytes (h : Points s text) : Yields (fun fuel ↦ putsBytes fuel s) text := by
  have hsent := (yields_loop h.rounds).map fun r ↦ r.1.map s
  have htext : ((List.range text.length).map fun m ↦ (fun i ↦ i + 1)^[m] 0).map s = text := by
    refine List.ext_getElem (by simp) fun i _ hi ↦ ?_
    have hat := h.agrees i hi.le
    rw [cstr, List.getD_eq_getElem _ _ hi] at hat
    simpa [iterate_add_one] using hat
  rwa [htext] at hsent

end Strings

section Buffers

@[simp] theorem Buffer.store_bytes : (b.store i c).bytes = update b.bytes i c := rfl

@[simp] theorem Buffer.store_stores : (b.store i c).stores = b.stores ++ [i] := rfl

/-- A buffer after bytes have been written to it from index `p` on. -/
structure Buffer.Wrote (b : Buffer) (p : ℕ) (text : List UInt8) (b' : Buffer) : Prop where
  bytes : ∀ i, b'.bytes i = if p ≤ i ∧ i < p + text.length then text.getD (i - p) 0 else b.bytes i
  stores : ∀ i ∈ b'.stores, i ∈ b.stores ∨ p ≤ i ∧ i < p + text.length

namespace Buffer.Wrote

theorem nil : b.Wrote p [] b :=
  ⟨fun _ ↦ (if_neg fun h ↦ absurd (h.1.trans_lt h.2) (lt_irrefl _)).symm, fun _ ↦ .inl⟩

theorem store : b.Wrote p [c] (b.store p c) := by
  constructor
  · intro i
    by_cases hi : i = p
    · subst hi
      rw [store_bytes, update_self, if_pos ⟨le_rfl, Nat.lt_succ_self i⟩, Nat.sub_self]
      rfl
    · rw [store_bytes, update_of_ne hi, if_neg]
      simp only [List.length_singleton]
      omega
  · intro i hi
    rcases List.mem_append.mp hi with hi | hi
    · exact .inl hi
    · obtain rfl := List.mem_singleton.mp hi
      exact .inr ⟨le_rfl, Nat.lt_succ_self i⟩

theorem of_parts
    (hbytes : ∀ i, b'.bytes i = if p ≤ i ∧ i < p + text.length then text.getD (i - p) 0
      else if p + text.length ≤ i ∧ i < p + text.length + rest.length then
        rest.getD (i - (p + text.length)) 0
      else b.bytes i)
    (hstores : ∀ i ∈ b'.stores, i ∈ b.stores ∨ p ≤ i ∧ i < p + text.length + rest.length) :
    b.Wrote p (text ++ rest) b' := by
  constructor
  · intro i
    rw [hbytes, List.length_append]
    by_cases htext : p ≤ i ∧ i < p + text.length
    · rw [if_pos htext, if_pos (by omega), List.getD_append _ _ _ _ (by omega)]
    · rw [if_neg htext]
      by_cases hrest : p + text.length ≤ i ∧ i < p + text.length + rest.length
      · rw [if_pos hrest, if_pos (by omega), List.getD_append_right _ _ _ _ (by omega), Nat.sub_sub]
      · rw [if_neg hrest, if_neg (by omega)]
  · intro i hi
    rw [List.length_append, ← Nat.add_assoc]
    exact hstores i hi

theorem append (h : b.Wrote p text b') (h' : b'.Wrote (p + text.length) rest b'') :
    b.Wrote p (text ++ rest) b'' := by
  refine of_parts (fun i ↦ ?_) fun i hi ↦ ?_
  · rw [h'.bytes, h.bytes]
    by_cases htext : p ≤ i ∧ i < p + text.length
    · rw [if_pos htext, if_neg (by omega), if_pos htext]
    · rw [if_neg htext, if_neg htext]
  · rcases h'.stores i hi with hi | hi
    · rcases h.stores i hi with hi | hi
      · exact .inl hi
      · exact .inr (by omega)
    · exact .inr (by omega)

theorem prepend (h : b.Wrote (p + text.length) rest b') (h' : b'.Wrote p text b'') :
    b.Wrote p (text ++ rest) b'' := by
  refine of_parts (fun i ↦ ?_) fun i hi ↦ ?_
  · rw [h'.bytes, h.bytes]
  · rcases h'.stores i hi with hi | hi
    · rcases h.stores i hi with hi | hi
      · exact .inl hi
      · exact .inr (by omega)
    · exact .inr (by omega)

theorem overwrite {old : List UInt8} (h : b.Wrote p (old ++ rest) b') (h' : b'.Wrote p text b'')
    (hlen : text.length = old.length) : b.Wrote p (text ++ rest) b'' := by
  have hlength : (old ++ rest).length = (text ++ rest).length := by
    rw [List.length_append, List.length_append, hlen]
  constructor
  · intro i
    rw [h'.bytes, h.bytes, hlength]
    by_cases htext : p ≤ i ∧ i < p + text.length
    · rw [if_pos htext, if_pos (by rw [List.length_append]; omega),
        List.getD_append _ _ _ _ (by omega)]
    · rw [if_neg htext]
      by_cases hall : p ≤ i ∧ i < p + (text ++ rest).length
      · rw [if_pos hall, if_pos hall, List.getD_append_right _ _ _ _ (by omega),
          List.getD_append_right _ _ _ _ (by omega), hlen]
      · rw [if_neg hall, if_neg hall]
  · intro i hi
    rcases h'.stores i hi with hi | hi
    · rw [← hlength]
      exact h.stores i hi
    · rw [List.length_append]
      exact .inr (by omega)

theorem points (h : b.Wrote p (text ++ [0]) b') (hzero : 0 ∉ text) :
    Points (fun i ↦ b'.bytes (p + i)) text := by
  refine ⟨hzero, fun i hi ↦ ?_⟩
  rw [h.bytes, if_pos (by rw [List.length_append, List.length_singleton]; omega),
    Nat.add_sub_cancel_left, cstr]
  rcases Nat.lt_or_eq_of_le hi with hlt | rfl
  · rw [List.getD_append _ _ _ _ hlt]
  · rw [List.getD_append_right _ _ _ _ le_rfl, Nat.sub_self, List.getD_eq_default _ _ le_rfl]
    rfl

end Buffer.Wrote

end Buffers

section Itoa

/-- A buffer after what lies between two of its bytes has been reversed. -/
structure Buffer.Mirrored (b : Buffer) (lo hi : ℕ) (b' : Buffer) : Prop where
  bytes : ∀ m, b'.bytes m = if lo ≤ m ∧ m ≤ hi then b.bytes (lo + hi - m) else b.bytes m
  stores : ∀ m ∈ b'.stores, m ∈ b.stores ∨ lo ≤ m ∧ m ≤ hi

namespace Buffer.Mirrored

variable {lo hi : ℕ}

theorem refl (h : hi ≤ lo) : b.Mirrored lo hi b := by
  refine ⟨fun m ↦ ?_, fun m ↦ .inl⟩
  split_ifs with hm
  · congr 1
    omega
  · rfl

theorem swap (hlt : lo < hi)
    (h : ((b.store hi (b.bytes lo)).store lo (b.bytes hi)).Mirrored (lo + 1) (hi - 1) b') :
    b.Mirrored lo hi b' := by
  refine ⟨fun m ↦ ?_, fun m hm ↦ ?_⟩
  · rw [h.bytes, store_bytes, store_bytes]
    by_cases hinner : lo + 1 ≤ m ∧ m ≤ hi - 1
    · rw [if_pos hinner, if_pos (by omega), update_of_ne (by omega), update_of_ne (by omega)]
      congr 1
      omega
    · rw [if_neg hinner]
      by_cases hlo : m = lo
      · subst hlo
        rw [update_self, if_pos (by omega), Nat.add_sub_cancel_left]
      · rw [update_of_ne hlo]
        by_cases hhi : m = hi
        · subst hhi
          rw [update_self, if_pos (by omega), Nat.add_sub_cancel]
        · rw [update_of_ne hhi, if_neg (by omega)]
  · rcases h.stores m hm with hm | hm
    · simp only [store_stores, List.mem_append, List.mem_singleton] at hm
      rcases hm with (hm | rfl) | rfl
      · exact .inl hm
      · exact .inr ⟨hlt.le, le_rfl⟩
      · exact .inr ⟨le_rfl, hlt.le⟩
    · exact .inr (by omega)

end Buffer.Mirrored

/-- The loop of `strrev` between two indices, of which the higher is at most `n` away. -/
theorem strrevLoop_yields (n : ℕ) (hn : j ≤ i + n) : ∃ b',
    Yields (fun fuel ↦ strrevLoop p fuel b i j) b' ∧ b.Mirrored (p + i) (p + j) b' := by
  induction n generalizing b i j with
  | zero => exact ⟨b, .of_succ fun fuel ↦ if_neg (by omega), .refl (by omega)⟩
  | succ n ih =>
    by_cases hlt : i < j
    · obtain ⟨b', hyields, hmirrored⟩ := ih
        (b := (b.store (p + j) (b.bytes (p + i))).store (p + i) (b.bytes (p + j)))
        (i := i + 1) (j := j - 1) (by omega)
      have hplace : p + (j - 1) = p + j - 1 := by omega
      rw [hplace] at hmirrored
      refine ⟨b', (yields_succ_iff fun fuel ↦ ?_).mpr hyields, hmirrored.swap (by omega)⟩
      have hbeg : ((i + 1 : ℕ) : ℤ) = i + 1 := rfl
      have hlast : ((j - 1 : ℕ) : ℤ) = j - 1 := by omega
      rw [hbeg, hlast, strrevLoop, if_pos (by omega)]
      rfl
    · exact ⟨b, .of_succ fun fuel ↦ if_neg (by omega), .refl (by omega)⟩

theorem strrev_yields (h : Points (fun i ↦ b.bytes (p + i)) text) (hne : text ≠ []) :
    ∃ b', Yields (fun fuel ↦ strrev fuel b p) b' ∧ b.Wrote p text.reverse b' := by
  have hpos : 0 < text.length := List.length_pos_iff.mpr hne
  obtain ⟨b', hyields, hmirrored⟩ :=
    strrevLoop_yields (b := b) (p := p) (i := 0) (j := text.length - 1) (text.length - 1) (by omega)
  refine ⟨b', h.strlen.bind ?_, ?_, fun m hm ↦ ?_⟩
  · have hlast : ((text.length - 1 : ℕ) : ℤ) = text.length - 1 := by omega
    rw [← hlast]
    exact hyields
  · intro m
    rw [hmirrored.bytes, List.length_reverse]
    by_cases hm : p ≤ m ∧ m < p + text.length
    · have hmirror : p + 0 + (p + (text.length - 1)) - m = p + (text.length - 1 - (m - p)) := by
        omega
      rw [if_pos (by omega), if_pos hm, hmirror, h.agrees _ (by omega), cstr,
        List.getD_eq_getElem _ _ (by omega),
        List.getD_eq_getElem _ _ (by rw [List.length_reverse]; omega), List.getElem_reverse]
    · rw [if_neg (by omega), if_neg hm]
  · rw [List.length_reverse]
    rcases hmirrored.stores m hm with hm | hm
    · exact .inl hm
    · exact .inr (by omega)

def digitChar (d : ℕ) : UInt8 := lookup.getD d 0

def numeral (r n : ℕ) : List UInt8 := (Numeral.digits r n).map digitChar

def numeralValue (r : ℕ) (text : List UInt8) : ℕ := Numeral.value r (text.map lookup.idxOf)

theorem radix_toNat (hr : r ≤ 36) : (Int32.ofNat r).toUInt32.toNat = r := by
  rw [Int32.toUInt32_ofNat', UInt32.toNat_ofNat_of_lt' (hr.trans_lt (by decide))]

theorem itoaLoop_yields (hr : 1 < r) (hr' : r ≤ 36) : ∃ b',
    Yields (fun fuel ↦ itoaLoop (Int32.ofNat r) fuel v b p)
      (b', p + (Nat.digits r v.toNat).length) ∧
    b.Wrote p ((Nat.digits r v.toNat).map digitChar) b' := by
  induction hn : v.toNat using Nat.strong_induction_on generalizing v b p with
  | _ n ih =>
    subst hn
    by_cases hv : v.toNat = 0
    · rw [hv, Nat.digits_zero]
      refine ⟨b, .of_succ fun fuel ↦ if_neg ?_, .nil⟩
      rw [gt_iff_lt, UInt32.lt_iff_toNat_lt, hv]
      exact lt_irrefl 0
    · have hdiv : (v / (Int32.ofNat r).toUInt32).toNat = v.toNat / r := by
        rw [UInt32.toNat_div, radix_toNat hr']
      have hmod : (v % (Int32.ofNat r).toUInt32).toNat = v.toNat % r := by
        rw [UInt32.toNat_mod, radix_toNat hr']
      obtain ⟨b', hyields, hwrote⟩ := ih (v.toNat / r)
        (Nat.div_lt_self (Nat.pos_of_ne_zero hv) hr) (v := v / (Int32.ofNat r).toUInt32)
        (b := b.store p (digitChar (v.toNat % r))) (p := p + 1) hdiv
      have hpos : v > 0 := by
        rw [gt_iff_lt, UInt32.lt_iff_toNat_lt]
        exact Nat.pos_of_ne_zero hv
      rw [Nat.digits_eq_cons_digits_div hr hv, List.length_cons, Nat.add_comm _ 1, ← Nat.add_assoc]
      refine ⟨b', (yields_succ_iff fun fuel ↦ ?_).mpr hyields, ?_⟩
      · rw [itoaLoop, if_pos hpos, hmod]
        rfl
      · exact Buffer.Wrote.store.append hwrote

theorem digitChar_idxOf {d : ℕ} (hd : d < 36) : lookup.idxOf (digitChar d) = d :=
  (by decide : ∀ d < 36, lookup.idxOf (digitChar d) = d) d hd

theorem digitChar_ne_zero {d : ℕ} (hd : d < 36) : digitChar d ≠ 0 :=
  (by decide : ∀ d < 36, digitChar d ≠ 0) d hd

theorem zero_notMem_numeral (hr : 1 < r) (hr' : r ≤ 36) : 0 ∉ numeral r n := by
  intro hzero
  obtain ⟨d, hd, hc⟩ := List.mem_map.mp hzero
  exact digitChar_ne_zero ((Numeral.lt_of_mem_digits hr hd).trans_le hr') hc

theorem numeral_ne_nil : numeral r n ≠ [] := List.map_eq_nil_iff.not.mpr Numeral.digits_ne_nil

theorem itoa_yields (hr : 1 < r) (hr' : r ≤ 36) : ∃ b',
    Yields (fun fuel ↦ itoa fuel v b p (Int32.ofNat r)) b' ∧
    b.Wrote p (numeral r v.toNat ++ [0]) b' := by
  by_cases hv : v = 0
  · subst hv
    refine ⟨_, .of_succ fun fuel ↦ if_pos rfl, ?_⟩
    exact Buffer.Wrote.store.append Buffer.Wrote.store
  · have hne : v.toNat ≠ 0 := fun h ↦ hv (UInt32.toNat_inj.mp h)
    obtain ⟨b₁, hloop, hdigits⟩ := itoaLoop_yields (v := v) (b := b) (p := p) hr hr'
    have hlen : ((Nat.digits r v.toNat).map digitChar).length = (Nat.digits r v.toNat).length :=
      List.length_map _
    have hended := hdigits.append (.store (c := 0))
    rw [hlen] at hended
    have hnumeral : numeral r v.toNat = ((Nat.digits r v.toNat).map digitChar).reverse := by
      rw [numeral, Numeral.digits_of_ne_zero hne, List.map_reverse]
    have hpoints := hended.points (List.mem_reverse.not.mp
      (hnumeral ▸ zero_notMem_numeral (n := v.toNat) hr hr'))
    obtain ⟨b₂, hrev, hreversed⟩ := strrev_yields hpoints
      (List.reverse_ne_nil_iff.mp (hnumeral ▸ numeral_ne_nil))
    refine ⟨b₂, ?_, ?_⟩
    · have hitoa (fuel : ℕ) : itoa fuel v b p (Int32.ofNat r) =
          (itoaLoop (Int32.ofNat r) fuel v b p).bind
            fun r ↦ strrev fuel (r.1.store r.2 0) p := if_neg hv
      simpa only [hitoa] using hloop.bind hrev
    · rw [hnumeral]
      exact hended.overwrite hreversed (List.length_reverse)

end Itoa

section Text

theorem numeralValue_numeral (hr : 1 < r) (hr' : r ≤ 36) :
    numeralValue r (numeral r n) = n := by
  have hdigits : (numeral r n).map lookup.idxOf = Numeral.digits r n := by
    rw [numeral, List.map_map]
    refine (List.map_congr_left fun d hd ↦ ?_).trans (List.map_id _)
    exact digitChar_idxOf ((Numeral.lt_of_mem_digits hr hd).trans_le hr')
  rw [numeralValue, hdigits, Numeral.value_digits]

theorem numeral_injective (hr : 1 < r) (hr' : r ≤ 36) : Injective (numeral r) :=
  LeftInverse.injective fun _ ↦ numeralValue_numeral hr hr'

theorem mem_take_of_mem_numeral (hr : 1 < r) (hr' : r ≤ 36) (h : c ∈ numeral r n) :
    c ∈ lookup.take r := by
  obtain ⟨d, hd, rfl⟩ := List.mem_map.mp h
  have hlt : d < r := Numeral.lt_of_mem_digits hr hd
  have hlength : d < lookup.length := (hlt.trans_le hr').trans_le (by decide)
  rw [digitChar, List.getD_eq_getElem _ _ hlength]
  exact List.mem_take_iff_getElem.mpr ⟨d, by omega, rfl⟩

theorem eq_zero_of_head_numeral (hr : 1 < r) (hr' : r ≤ 36)
    (h : (numeral r n).head? = some '0'.toUInt8) : n = 0 := by
  rw [numeral, List.head?_map, Option.map_eq_some_iff] at h
  obtain ⟨d, hd, hc⟩ := h
  have hlt : d < r := Numeral.lt_of_mem_digits hr (List.mem_of_head? hd)
  have hzero : lookup.idxOf (digitChar d) = 0 := by
    rw [hc]
    decide
  rw [digitChar_idxOf (hlt.trans_le hr')] at hzero
  exact Numeral.eq_zero_of_head_digits (hzero ▸ hd)

theorem length_numeral_le {k : ℕ} (hr : 1 < r) (hk : 0 < k) (h : n < r ^ k) :
    (numeral r n).length ≤ k := by
  rw [numeral, List.length_map]
  exact Numeral.length_digits_le hr hk h

def signedNumeral (v : Int32) : List UInt8 :=
  if v < 0 then '-'.toUInt8 :: numeral 10 v.toInt.natAbs else numeral 10 v.toInt.natAbs

def paddedHex (v : UInt32) : List UInt8 :=
  List.replicate (8 - (numeral 16 v.toNat).length) '0'.toUInt8 ++ numeral 16 v.toNat

theorem length_hex_le : (numeral 16 v.toNat).length ≤ 8 :=
  length_numeral_le (by decide) (by decide) v.toNat_lt

theorem length_decimal_le (h : n < 10 ^ 10) : (numeral 10 n).length ≤ 10 :=
  length_numeral_le (by decide) (by decide) h

theorem length_paddedHex : (paddedHex v).length = 8 := by
  rw [paddedHex, List.length_append, List.length_replicate]
  have hlen := length_hex_le (v := v)
  omega

theorem numeralValue_paddedHex : numeralValue 16 (paddedHex v) = v.toNat := by
  rw [numeralValue, paddedHex, List.map_append, List.map_replicate]
  exact Numeral.value_padded.trans (numeralValue_numeral (by decide) (by decide))

theorem mem_take_of_mem_paddedHex (h : c ∈ paddedHex v) : c ∈ lookup.take 16 := by
  rcases List.mem_append.mp h with h | h
  · rw [(List.mem_replicate.mp h).2]
    decide
  · exact mem_take_of_mem_numeral (by decide) (by decide) h

theorem toInt_eq_toNat {v : Int32} : v.toInt = if 2 * v.toUInt32.toNat < 2 ^ 32 then
    (v.toUInt32.toNat : ℤ) else v.toUInt32.toNat - (2 ^ 32 : ℕ) := by
  rw [← Int32.toInt_toBitVec, BitVec.toInt_eq_toNat_cond]
  rfl

theorem neg_iff {v : Int32} : v < 0 ↔ v.toInt < 0 := Int32.lt_iff_toInt_lt

theorem toNat_neg_of_neg {v : Int32} (h : v < 0) : (-v).toUInt32.toNat = v.toInt.natAbs := by
  have hneg := neg_iff.mp h
  have hlt := v.toUInt32.toNat_lt
  rw [Int32.toUInt32_neg, UInt32.toNat_neg, UInt32.size]
  rw [toInt_eq_toNat] at hneg ⊢
  split_ifs at hneg ⊢ <;> omega

theorem toNat_of_nonneg {v : Int32} (h : ¬v < 0) : v.toUInt32.toNat = v.toInt.natAbs := by
  have hneg := neg_iff.not.mp h
  have hlt := v.toUInt32.toNat_lt
  rw [toInt_eq_toNat] at hneg ⊢
  split_ifs at hneg ⊢ <;> omega

theorem natAbs_lt {v : Int32} : v.toInt.natAbs < 10 ^ 10 := by
  have hle := v.le_toInt
  have hlt := v.toInt_lt
  omega

end Text

section Conversions

variable {call : PrintfCall} {s s' s'' : PrintfState} {width width' used used' size : ℕ}
  {out out' : List UInt8} {alternate : Bool}

/-- What `printf` has done on its way to a state: how far its pointers have gone and what
it has printed, without a look at what comes later and without a write outside an array. -/
structure PrintfState.Did (s : PrintfState) (width used : ℕ) (out : List UInt8)
    (s' : PrintfState) : Prop where
  buf : s'.buf = s.buf + width
  esp : s'.esp = s.esp + used
  sent : s'.sent = s.sent ++ out
  reads : ∀ i ∈ s'.reads, i ∈ s.reads ∨ i ≤ s'.buf
  stores : ∀ w ∈ s'.stores, w ∈ s.stores ∨ w.2 < w.1

namespace PrintfState.Did

theorem refl : s.Did 0 0 [] s :=
  ⟨rfl, rfl, (List.append_nil _).symm, fun _ ↦ .inl, fun _ ↦ .inl⟩

theorem trans (h : s.Did width used out s') (h' : s'.Did width' used' out' s'') :
    s.Did (width + width') (used + used') (out ++ out') s'' := by
  refine ⟨?_, ?_, ?_, fun i hi ↦ ?_, fun w hw ↦ ?_⟩
  · rw [h'.buf, h.buf, Nat.add_assoc]
  · rw [h'.esp, h.esp, Nat.add_assoc]
  · rw [h'.sent, h.sent, List.append_assoc]
  · rcases h'.reads i hi with hi | hi
    · refine (h.reads i hi).imp_right fun hle ↦ hle.trans ?_
      exact h'.buf ▸ Nat.le_add_right _ _
    · exact .inr hi
  · rcases h'.stores w hw with hw | hw
    · exact h.stores w hw
    · exact .inr hw

theorem read : s.Did 0 0 [] s.read := by
  refine ⟨rfl, rfl, (List.append_nil _).symm, fun i hi ↦ ?_, fun _ ↦ .inl⟩
  rcases List.mem_append.mp hi with hi | hi
  · exact .inl hi
  · exact .inr (List.mem_singleton.mp hi).le

theorem nextChar : s.Did 1 0 [] s.nextChar :=
  ⟨rfl, rfl, (List.append_nil _).symm, fun _ ↦ .inl, fun _ ↦ .inl⟩

theorem nextArg : s.Did 0 1 [] s.nextArg :=
  ⟨rfl, rfl, (List.append_nil _).symm, fun _ ↦ .inl, fun _ ↦ .inl⟩

theorem puts : s.Did 0 0 text (s.puts text) := ⟨rfl, rfl, rfl, fun _ ↦ .inl, fun _ ↦ .inl⟩

theorem putc : s.Did 0 0 [c] (s.putc c) := puts

theorem wrote (h : ∀ i ∈ b.stores, i < size) : s.Did 0 0 [] (s.wrote size b) := by
  refine ⟨rfl, rfl, (List.append_nil _).symm, fun _ ↦ .inl, fun w hw ↦ ?_⟩
  rcases List.mem_append.mp hw with hw | hw
  · exact .inl hw
  · obtain ⟨i, hi, rfl⟩ := List.mem_map.mp hw
    exact .inr (h i hi)

theorem char (h : s.Did 0 used out s') (h' : s'.nextChar.Did (n + width) used' out' s'') :
    s.Did (n + 1 + width) (used + used') (out ++ out') s'' := by
  have hdid := h.trans (nextChar.trans h')
  have hwidth : 0 + (1 + (n + width)) = n + 1 + width := by omega
  rwa [hwidth, Nat.zero_add, List.nil_append] at hdid

theorem skip (h : s.read.nextChar.Did (n + width) used out s') :
    s.Did (n + 1 + width) used out s' := by
  have hdid := read.char h
  rwa [Nat.zero_add, List.nil_append] at hdid

end PrintfState.Did

theorem putsConvBuf_yields (h : (call.convBuf s).Wrote p (text ++ [0]) b) (hzero : 0 ∉ text)
    (hsize : p + text.length < size) (s₀ : PrintfState) : ∃ s',
    Yields (fun fuel ↦ PrintfCall.putsConvBuf fuel size b p s₀) s' ∧ s₀.Did 0 1 text s' := by
  refine ⟨_, (h.points hzero).putsBytes.map fun text ↦ ((s₀.puts text).wrote size b).nextArg, ?_⟩
  have hinside : ∀ i ∈ b.stores, i < size := by
    intro i hi
    rcases h.stores i hi with hi | hi
    · cases hi
    · rw [List.length_append, List.length_singleton] at hi
      omega
  have hputs : s₀.Did 0 0 text (s₀.puts text) := .puts
  have hdid := (hputs.trans (.wrote hinside)).trans .nextArg
  rwa [List.append_nil, List.append_nil] at hdid

theorem printNumber_yields (hr : 1 < r) (hr' : r ≤ 36) (hsize : (numeral r v.toNat).length < size) :
    ∃ s', Yields (fun fuel ↦ (itoa fuel v (call.convBuf s) 0 (Int32.ofNat r)).bind fun convBuf ↦
      PrintfCall.putsConvBuf fuel size convBuf 0 s) s' ∧
    s.Did 0 1 (numeral r v.toNat) s' := by
  obtain ⟨b, hitoa, hwrote⟩ := itoa_yields (v := v) (b := call.convBuf s) (p := 0) hr hr'
  obtain ⟨s', hputs, hdid⟩ := putsConvBuf_yields hwrote (zero_notMem_numeral hr hr')
    (by rwa [Nat.zero_add]) s
  exact ⟨s', hitoa.bind hputs, hdid⟩

theorem printHex_yields : ∃ s', Yields (fun fuel ↦ call.printHex fuel s) s' ∧
    s.Did 0 1 (numeral 16 (call.stack s.esp).toNat) s' :=
  printNumber_yields (by decide) (by decide) (length_hex_le.trans_lt (by decide))

theorem printUnsigned_yields : ∃ s', Yields (fun fuel ↦ call.printUnsigned fuel s) s' ∧
    s.Did 0 1 (numeral 10 (call.stack s.esp).toNat) s' :=
  printNumber_yields (by decide) (by decide)
    ((length_decimal_le ((call.stack s.esp).toNat_lt.trans (by decide))).trans_lt (by decide))

theorem printSigned_yields : ∃ s', Yields (fun fuel ↦ call.printSigned fuel s) s' ∧
    s.Did 0 1 (signedNumeral (call.stack s.esp).toInt32) s' := by
  have hlen : (numeral 10 (call.stack s.esp).toInt32.toInt.natAbs).length ≤ 10 :=
    length_decimal_le natAbs_lt
  by_cases hneg : (call.stack s.esp).toInt32 < 0
  · obtain ⟨b, hitoa, hwrote⟩ := itoa_yields (v := (-(call.stack s.esp).toInt32).toUInt32)
      (b := (call.convBuf s).store 0 '-'.toUInt8) (p := 1) (r := 10) (by decide) (by decide)
    rw [toNat_neg_of_neg hneg] at hwrote
    have hsigned := (Buffer.Wrote.store (b := call.convBuf s) (p := 0)).append hwrote
    have hzero : 0 ∉ '-'.toUInt8 :: numeral 10 (call.stack s.esp).toInt32.toInt.natAbs := by
      rw [List.mem_cons, not_or]
      exact ⟨by decide, zero_notMem_numeral (by decide) (by decide)⟩
    have hsize : 0 + ('-'.toUInt8 :: numeral 10 (call.stack s.esp).toInt32.toInt.natAbs).length
        < 36 := by
      rw [List.length_cons]
      omega
    obtain ⟨s', hputs, hdid⟩ := putsConvBuf_yields hsigned hzero hsize s
    rw [signedNumeral, if_pos hneg]
    refine ⟨s', ?_, hdid⟩
    simp only [PrintfCall.printSigned, if_pos hneg]
    exact hitoa.bind hputs
  · have hprint : ∃ s', Yields (fun fuel ↦ call.printSigned fuel s) s' ∧
        s.Did 0 1 (numeral 10 (call.stack s.esp).toInt32.toUInt32.toNat) s' := by
      simp only [PrintfCall.printSigned, if_neg hneg]
      refine printNumber_yields (by decide) (by decide) ?_
      rw [toNat_of_nonneg hneg]
      exact hlen.trans_lt (by decide)
    rw [signedNumeral, if_neg hneg, ← toNat_of_nonneg hneg]
    exact hprint

theorem padding_wrote : b.Wrote p (List.replicate n c)
    ((List.range' p n).foldl (fun convBuf i ↦ convBuf.store i c) b) := by
  induction n generalizing p b with
  | zero => exact .nil
  | succ n ih =>
    rw [List.range'_succ, List.foldl_cons, List.replicate_succ]
    exact Buffer.Wrote.store.append ih

theorem printHex8_yields : ∃ s', Yields (fun fuel ↦ call.printHex8 fuel s) s' ∧
    s.Did 0 1 (paddedHex (call.stack s.esp)) s' := by
  have hle := length_hex_le (v := call.stack s.esp)
  have hnumeral : 0 ∉ numeral 16 (call.stack s.esp).toNat :=
    zero_notMem_numeral (by decide) (by decide)
  have hzero : 0 ∉ paddedHex (call.stack s.esp) := by
    rw [paddedHex, List.mem_append, not_or]
    exact ⟨fun h ↦ absurd (List.mem_replicate.mp h).2 (by decide), hnumeral⟩
  obtain ⟨b, hitoa, hwrote⟩ := itoa_yields (v := call.stack s.esp) (b := call.convBuf s) (p := 8)
    (r := 16) (by decide) (by decide)
  have hpadded := padding_wrote (b := b) (p := (numeral 16 (call.stack s.esp).toNat).length)
    (n := 8 - (numeral 16 (call.stack s.esp).toNat).length) (c := '0'.toUInt8)
  have hplace : 8 = (numeral 16 (call.stack s.esp).toNat).length +
      (List.replicate (8 - (numeral 16 (call.stack s.esp).toNat).length) '0'.toUInt8).length := by
    rw [List.length_replicate]
    omega
  have hall := Buffer.Wrote.prepend (hplace ▸ hwrote) hpadded
  rw [← List.append_assoc, ← paddedHex] at hall
  have hsize : (numeral 16 (call.stack s.esp).toNat).length +
      (paddedHex (call.stack s.esp)).length < 64 := by
    rw [length_paddedHex]
    omega
  obtain ⟨s', hputs, hdid⟩ := putsConvBuf_yields hall hzero hsize s
  exact ⟨s', hitoa.bind ((hwrote.points hnumeral).strlen.bind hputs), hdid⟩

end Conversions

end ApollOS
