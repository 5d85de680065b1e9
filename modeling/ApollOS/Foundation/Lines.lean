import Mathlib.Data.List.Infix

namespace ApollOS.Lines

variable {α : Type*} {width : ℕ} {sep : α} {l r text pat : List α}

/-- A line cut into pieces of `width` items, of which the last may be shorter. -/
def cut (width : ℕ) (l : List α) : List (List α) :=
  if l = [] ∨ width = 0 then [] else l.take width :: cut width (l.drop width)
termination_by l.length
decreasing_by
  rename_i h
  have hpos : 0 < l.length := List.length_pos_of_ne_nil fun he ↦ h (.inl he)
  rw [List.length_drop]
  omega

theorem cut_nil : cut width ([] : List α) = [] := by
  rw [cut, if_pos (.inl rfl)]

theorem cut_of_length_le (hne : l ≠ []) (h : l.length ≤ width) : cut width l = [l] := by
  have hpos := List.length_pos_of_ne_nil hne
  have hstop : ¬ (l = [] ∨ width = 0) := by
    rintro (he | he)
    · exact hne he
    · omega
  rw [cut, if_neg hstop, List.take_of_length_le h, List.drop_eq_nil_of_le h, cut_nil]

theorem cut_append (hl : l.length = width) (hw : 0 < width) :
    cut width (l ++ r) = l :: cut width r := by
  have hne : l ≠ [] := List.ne_nil_of_length_pos (by omega)
  have hstop : ¬ (l ++ r = [] ∨ width = 0) := by
    rintro (he | he)
    · exact hne (List.append_eq_nil_iff.mp he).1
    · omega
  rw [cut, if_neg hstop, List.take_left' hl, List.drop_left' hl]

variable [DecidableEq α]

/-- The pieces of a text that is read through a window of `width` items: every line begins a
new one. -/
def pieces (sep : α) (width : ℕ) (text : List α) : List (List α) :=
  (text.splitOn sep).flatMap (cut width)

/-- The pieces in which a pattern occurs. -/
def hits (pat : List α) (sep : α) (width : ℕ) (text : List α) : List (List α) :=
  (pieces sep width text).filter fun piece ↦ pat <:+: piece

def hit (pat l : List α) : List (List α) := if pat <:+: l then [l] else []

theorem splitOn_append (h : sep ∉ l) :
    (l ++ r).splitOn sep = (r.splitOn sep).modifyHead (l ++ ·) := by
  induction l with
  | nil => cases hr : r.splitOn sep <;> simp [hr]
  | cons x l ih =>
    rw [List.mem_cons, not_or] at h
    have hx : (x == sep) = false := by simpa using Ne.symm h.1
    rw [List.cons_append, List.splitOn_cons_eq_if_modifyHead, hx, ih h.2]
    cases hr : r.splitOn sep <;> simp

theorem filter_cut (hpat : pat ≠ []) (h : l.length ≤ width) :
    (cut width l).filter (fun piece ↦ pat <:+: piece) = hit pat l := by
  by_cases hl : l = []
  · subst hl
    have hno : ¬ pat <:+: [] := fun hin ↦ hpat (List.infix_nil.mp hin)
    rw [cut_nil, hit, if_neg hno, List.filter_nil]
  · rw [cut_of_length_le hl h, hit]
    by_cases hin : pat <:+: l <;> simp [hin]

theorem hits_line (hpat : pat ≠ []) (hsep : sep ∉ l) (h : l.length ≤ width) :
    hits pat sep width (l ++ sep :: r) = hit pat l ++ hits pat sep width r := by
  rw [hits, hits, pieces, pieces, List.splitOn_append_cons_self_of_not_mem hsep,
    List.flatMap_cons, List.filter_append, filter_cut hpat h]

theorem hits_full (hsep : sep ∉ l) (h : l.length = width) (hw : 0 < width) :
    hits pat sep width (l ++ r) = hit pat l ++ hits pat sep width r := by
  rw [hits, hits, pieces, pieces, splitOn_append hsep]
  cases hr : r.splitOn sep with
  | nil => exact absurd hr (List.splitOn_ne_nil sep r)
  | cons first rest =>
    rw [List.modifyHead_cons, List.flatMap_cons, cut_append h hw, List.flatMap_cons,
      List.cons_append, ← List.singleton_append, List.filter_append]
    congr 1
    rw [hit]
    by_cases hin : pat <:+: l <;> simp [hin]

theorem hits_last (hpat : pat ≠ []) (hsep : sep ∉ l) (h : l.length ≤ width) :
    hits pat sep width l = hit pat l := by
  rw [hits, pieces, List.splitOn_eq_singleton hsep, List.flatMap_singleton, filter_cut hpat h]

/-- If no line is wider than the window, the hits are the lines with the pattern. -/
theorem hits_of_short (hpat : pat ≠ []) (h : ∀ l ∈ text.splitOn sep, l.length ≤ width) :
    hits pat sep width text = (text.splitOn sep).filter fun l ↦ pat <:+: l := by
  rw [hits, pieces]
  generalize text.splitOn sep = lines at h
  induction lines with
  | nil => rfl
  | cons l lines ih =>
    rw [List.flatMap_cons, List.filter_append, filter_cut hpat (h l List.mem_cons_self),
      ih fun l' hl' ↦ h l' (List.mem_cons_of_mem l hl'), hit]
    by_cases hin : pat <:+: l <;> simp [hin]

end ApollOS.Lines
