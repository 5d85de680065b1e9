import ApollOS.Files.FileReads
import ApollOS.Foundation.Lines
import ApollOS.Programs.GrepBuffer

namespace ApollOS

open Function Fuel Lines Reader

variable {σ : Type} {calls : UserCalls σ} {fd cnt : ℤ} {text l name pat : List UInt8}
  {out E : List (List UInt8)} {I : ℕ → List (List UInt8) → σ → Prop} {st : σ} {total : ℕ}
  {s fname : ℕ → UInt8} {ptr : Ptr} {data : LineBuffer} {last lineStart : ℕ}

/-- What the program can rely on while it has the file open: `I total out` says that it has asked
for `total` bytes and written `out`. Every read delivers the next chunk of the file. -/
structure Serves (calls : UserCalls σ) (fd : ℤ) (text : List UInt8)
    (I : ℕ → List (List UInt8) → σ → Prop) : Prop where
  read : ∀ {total out st} (n : ℕ), I total out st → n ≤ bufSize →
    ∃ st', calls.ece391Read fd n st =
      some (st', ((chunk text total n).length : ℤ), chunk text total n) ∧ I (total + n) out st'
  write : ∀ {total out st bytes}, 0 ∉ bytes → I total out st →
    I total (out ++ [bytes]) (calls.ece391Write 1 bytes st)
  close : ∀ {total out st}, I total out st → (calls.ece391Close fd st).2 ≠ -1

def reports (name : List UInt8) (found : List (List UInt8)) : List (List UInt8) :=
  found.flatMap fun piece ↦ [name, ascii ":", piece, ascii "\n"]

/-- The pieces of a file that has the pattern: a line is taken in as many bytes at a time as the
buffer holds. -/
def grepHits (pat text : List UInt8) : List (List UInt8) :=
  hits pat '\n'.toUInt8 bufSize text

section Report

theorem fdputs_yields (h : Spells ptr l) :
    Yields (fun fuel ↦ calls.ece391Fdputs fuel fd ptr st) (calls.ece391Write fd l st) := by
  refine (strlen_yields h).bind ?_
  rw [mapM_range h]
  exact yields_some

theorem Serves.report (hs : Serves calls fd text I) (hname : Points fname name)
    (hline : Spells ptr l) (h : I total out st) :
    ∃ st', Yields (fun fuel ↦ calls.report fuel fname ptr st) st' ∧
      I total (out ++ reports name [l]) st' := by
  refine ⟨_, (fdputs_yields (.of_points hname)).bind
    ((fdputs_yields (spells_message (by decide))).bind
      ((fdputs_yields hline).bind (fdputs_yields (spells_message (by decide))))), ?_⟩
  have hcolon : 0 ∉ ascii ":" := by decide
  have hbreak : 0 ∉ ascii "\n" := by decide
  have h₄ := hs.write hbreak (hs.write hline.nonzero (hs.write hcolon (hs.write hname.nonzero h)))
  simp only [List.append_assoc, List.singleton_append] at h₄
  exact h₄

theorem Serves.report_found (hs : Serves calls fd text I) (hname : Points fname name)
    (hline : Spells ptr l) (h : I total out st) :
    ∃ st', I total (out ++ reports name (hit pat l)) st' ∧
      ∀ {β : Type} {next : ℕ → σ → Option β} {res : β}, Yields (fun fuel ↦ next fuel st') res →
        Yields (fun fuel ↦ if decide (pat <:+: l) = true then
          (calls.report fuel fname ptr st).bind (next fuel) else next fuel st) res := by
  by_cases hin : pat <:+: l
  · obtain ⟨st', hreport, hI⟩ := hs.report hname hline h
    simp only [hit, if_pos hin, decide_eq_true hin, if_true]
    exact ⟨st', hI, fun hnext ↦ hreport.bind hnext⟩
  · simp only [hit, if_neg hin, decide_eq_false hin, Bool.false_eq_true, if_false]
    refine ⟨st, ?_, fun hnext ↦ hnext⟩
    rw [reports, List.flatMap_nil, List.append_nil]
    exact h

end Report

def Plain (l : List UInt8) : Prop := ∀ c ∈ l, c ≠ 0 ∧ c < 128

/-- The buffer begins with a piece of a line that is not known to be complete. -/
structure Window (data : LineBuffer) (l : List UInt8) : Prop where
  holds : data.Holds 0 l
  plain : Plain l
  short : l.length < bufSize
  guard : data bufSize ≠ '\n'.toUInt8

section Scan

theorem Serves.scan_line (hs : Serves calls fd text I) (hname : Points fname name)
    (hpat : Points s pat) (hne : pat ≠ []) (hI : I total out st) (h : data.Holds lineStart l)
    (hplain : Plain l) (hline : '\n'.toUInt8 ∉ l) (hle : lineStart + l.length ≤ last)
    (hlast : last ≤ bufSize)
    (hend : lineStart + l.length = last ∨ data (lineStart + l.length) = '\n'.toUInt8)
    (hgo : ¬ (data (lineStart + l.length) ≠ '\n'.toUInt8 ∧ cnt ≠ 0 ∧ lineStart ≠ 0)) :
    ∃ st', I total (out ++ reports name (hit pat l)) st' ∧ ∀ res,
      Yields (fun fuel ↦
        if lineStart + l.length + 1 ≥ last then
          some (st', update data (lineStart + l.length) 0, 0)
        else calls.scanLines s fname pat.length cnt fuel st'
          (update data (lineStart + l.length) 0) last (lineStart + l.length + 1)) res →
      Yields (fun fuel ↦ calls.scanLines s fname pat.length cnt fuel st data last lineStart)
        res := by
  have hfit : lineStart + l.length ≤ bufSize := hle.trans hlast
  have hholds : LineBuffer.Holds (update data (lineStart + l.length) 0) lineStart l :=
    h.update (.inr le_rfl)
  have hnul : 0 ∉ l := fun hmem ↦ (hplain 0 hmem).1 rfl
  have hstop : update data (lineStart + l.length) 0 (lineStart + l.length) = 0 := update_self _ _ _
  have hspells := hholds.spells hstop hnul hfit
  obtain ⟨st', hI', hreport⟩ := hs.report_found hname hspells hI
  refine ⟨st', hI', fun res hres ↦ (yields_succ_iff fun fuel ↦ rfl).mpr ?_⟩
  refine (LineBuffer.findEnd_yields h hline hle hlast hend).bind ?_
  simp only [LineBuffer.load_eq hfit, LineBuffer.store_eq hfit, Option.bind_eq_bind,
    Option.bind_some, if_neg hgo]
  refine (LineBuffer.search_yields hholds hstop hnul (fun c hc ↦ (hplain c hc).2) hfit hpat
    hne).bind ?_
  exact hreport hres

theorem scan_partial (h : data.Holds lineStart l) (hplain : Plain l)
    (hline : '\n'.toUInt8 ∉ l) (hend : lineStart + l.length = last) (hlast : last ≤ bufSize)
    (hgo : data last ≠ '\n'.toUInt8 ∧ cnt ≠ 0 ∧ lineStart ≠ 0)
    (hguard : data bufSize ≠ '\n'.toUInt8) :
    ∃ data', Yields (fun fuel ↦ calls.scanLines s fname pat.length cnt fuel st data last lineStart)
      (st, data', l.length) ∧ Window data' l := by
  subst hend
  obtain ⟨hbreak, hcnt, hstart⟩ := hgo
  have hpos : 0 < lineStart := Nat.pos_of_ne_zero hstart
  have hholds : LineBuffer.Holds (update data (lineStart + l.length) 0) lineStart l :=
    h.update (.inr le_rfl)
  have hnul : 0 ∉ l := fun hmem ↦ (hplain 0 hmem).1 rfl
  obtain ⟨data', hcopy, hheld, hframe⟩ := LineBuffer.strcpy_yields hholds (update_self _ _ _) hnul
    hlast hpos
  have hshort : l.length < bufSize := by omega
  refine ⟨data', (yields_succ_iff fun fuel ↦ rfl).mpr ?_, hheld, hplain, hshort, ?_⟩
  · refine (LineBuffer.findEnd_yields h hline le_rfl hlast (.inl rfl)).bind ?_
    simp only [LineBuffer.load_eq hlast, LineBuffer.store_eq hlast, Option.bind_eq_bind,
      Option.bind_some, if_pos (And.intro hbreak (And.intro hcnt hstart))]
    refine hcopy.bind ?_
    rw [Nat.add_sub_cancel_left]
    exact yields_some
  · rw [hframe bufSize (.inr (by omega)), update_apply]
    split_ifs
    · decide
    · exact hguard

/-- What the inner loop makes of the rest of what is in the buffer: the hits in it are reported,
up to a piece that it leaves at the beginning. -/
structure Scanned (pat l rest : List UInt8) (cnt : ℤ) (E : List (List UInt8)) (data : LineBuffer)
    (left : List UInt8) : Prop where
  window : Window data left
  hits : grepHits pat (l ++ rest) = E ++ grepHits pat (left ++ rest)
  ended : cnt = 0 → left = []

theorem reports_append {E₁ E₂ : List (List UInt8)} :
    reports name (E₁ ++ E₂) = reports name E₁ ++ reports name E₂ := List.flatMap_append

theorem guard_update {k : ℕ} (hguard : data bufSize ≠ '\n'.toUInt8) :
    update data k 0 bufSize ≠ '\n'.toUInt8 := by
  rw [update_apply]
  split_ifs
  · decide
  · exact hguard

theorem window_nil (hguard : data bufSize ≠ '\n'.toUInt8) : Window data [] where
  holds j hj := absurd hj (Nat.not_lt_zero j)
  plain c hc := absurd hc List.not_mem_nil
  short := by decide
  guard := hguard

theorem grepHits_nil (hne : pat ≠ []) : grepHits pat [] = [] := by
  have hno : ¬ pat <:+: [] := fun hin ↦ hne (List.infix_nil.mp hin)
  rw [grepHits, hits_last hne List.not_mem_nil (Nat.zero_le _), hit, if_neg hno]

/-- What is searched as a line, though no newline ends it, is one that the file ends with or a
piece that fills the buffer. -/
theorem grepHits_unended (hne : pat ≠ []) {rest : List UInt8} (hline : '\n'.toUInt8 ∉ l)
    (hfit : l.length ≤ bufSize) (hrest : rest = [] ∨ l.length = bufSize) :
    grepHits pat (l ++ rest) = hit pat l ++ grepHits pat rest := by
  rcases hrest with rfl | hfull
  · rw [List.append_nil, grepHits_nil hne, List.append_nil]
    exact hits_last hne hline hfit
  · exact hits_full hline hfull (by decide)

theorem Serves.scan_unended (hs : Serves calls fd text I) (hname : Points fname name)
    (hpat : Points s pat) (hne : pat ≠ []) {rest : List UInt8} (hI : I total out st)
    (h : data.Holds lineStart l) (hplain : Plain l) (hline : '\n'.toUInt8 ∉ l)
    (hend : lineStart + l.length = last) (hlast : last ≤ bufSize)
    (hguard : data bufSize ≠ '\n'.toUInt8) (hrest : last < bufSize ∨ cnt = 0 → rest = []) :
    ∃ E st' data' left,
      Yields (fun fuel ↦ calls.scanLines s fname pat.length cnt fuel st data last lineStart)
        (st', data', left.length) ∧
      I total (out ++ reports name E) st' ∧ Scanned pat l rest cnt E data' left := by
  by_cases hgo : data last ≠ '\n'.toUInt8 ∧ cnt ≠ 0 ∧ lineStart ≠ 0
  · obtain ⟨data', hyields, hwindow⟩ := scan_partial h hplain hline hend hlast hgo hguard
    refine ⟨[], st, data', l, hyields, ?_, hwindow, rfl, fun hzero ↦ absurd hzero hgo.2.1⟩
    rw [reports, List.flatMap_nil, List.append_nil]
    exact hI
  · subst hend
    obtain ⟨st₁, hI₁, hround⟩ := hs.scan_line hname hpat hne hI h hplain hline le_rfl hlast
      (.inl rfl) hgo
    have hcase : rest = [] ∨ l.length = bufSize := by
      by_cases hshort : lineStart + l.length < bufSize ∨ cnt = 0
      · exact .inl (hrest hshort)
      · rw [not_or] at hshort
        have hfull : lineStart + l.length = bufSize := by omega
        -- Anywhere else in a full buffer the line would have been moved, not searched.
        have hzero : lineStart = 0 := by
          by_contra hstart
          exact hgo ⟨hfull ▸ hguard, hshort.2, hstart⟩
        exact .inr (by omega)
    have hdone : lineStart + l.length + 1 ≥ lineStart + l.length := Nat.le_succ _
    refine ⟨hit pat l, st₁, update data (lineStart + l.length) 0, [], hround _ ?_, hI₁,
      window_nil (guard_update hguard), grepHits_unended hne hline (by omega) hcase,
      fun _ ↦ rfl⟩
    simp only [if_pos hdone]
    exact yields_some

/-- By induction on what is left in the buffer, line by line. -/
theorem Serves.scan (hs : Serves calls fd text I) (hname : Points fname name)
    (hpat : Points s pat) (hne : pat ≠ []) {rest : List UInt8} (hI : I total out st)
    (h : data.Holds lineStart l) (hplain : Plain l) (hend : lineStart + l.length = last)
    (hlast : last ≤ bufSize) (hguard : data bufSize ≠ '\n'.toUInt8)
    (hrest : last < bufSize ∨ cnt = 0 → rest = []) :
    ∃ E st' data' left,
      Yields (fun fuel ↦ calls.scanLines s fname pat.length cnt fuel st data last lineStart)
        (st', data', left.length) ∧
      I total (out ++ reports name E) st' ∧ Scanned pat l rest cnt E data' left := by
  generalize hn : l.length = n
  induction n using Nat.strong_induction_on generalizing l lineStart data st out with
  | h n ih =>
    by_cases hmem : '\n'.toUInt8 ∈ l
    · obtain ⟨line, more, rfl, hline⟩ := List.eq_append_cons_of_mem hmem
      have hlen : (line ++ '\n'.toUInt8 :: more).length = line.length + 1 + more.length := by
        rw [List.length_append, List.length_cons]
        omega
      rw [hlen] at hend hn
      have hbreak : data (lineStart + line.length) = '\n'.toUInt8 := h.right.head
      obtain ⟨st₁, hI₁, hround⟩ := hs.scan_line hname hpat hne hI h.left
        (fun c hc ↦ hplain c (List.mem_append_left _ hc)) hline (by omega) hlast (.inr hbreak)
        (fun hgo ↦ hgo.1 hbreak)
      have hhits : grepHits pat (line ++ '\n'.toUInt8 :: more ++ rest) =
          hit pat line ++ grepHits pat (more ++ rest) := by
        rw [List.append_assoc, List.cons_append]
        exact hits_line hne hline (by omega)
      by_cases hmore : more = []
      · subst hmore
        have hdone : lineStart + line.length + 1 ≥ last := by
          rw [List.length_nil] at hend
          omega
        refine ⟨hit pat line, st₁, update data (lineStart + line.length) 0, [], hround _ ?_, hI₁,
          window_nil (guard_update hguard), hhits, fun _ ↦ rfl⟩
        simp only [if_pos hdone]
        exact yields_some
      · have hpos := List.length_pos_of_ne_nil hmore
        have hholds : LineBuffer.Holds (update data (lineStart + line.length) 0)
            (lineStart + line.length + 1) more := h.right.tail.update (.inl (by omega))
        obtain ⟨E, st', data', left, hyields, hI', hscanned⟩ := ih more.length (by omega) hI₁ hholds
          (fun c hc ↦ hplain c (List.mem_append_right _ (List.mem_cons_of_mem _ hc))) (by omega)
          (guard_update hguard) rfl
        refine ⟨hit pat line ++ E, st', data', left, hround _ ?_, ?_, hscanned.window, ?_,
          hscanned.ended⟩
        · have hgoes : ¬ lineStart + line.length + 1 ≥ last := by omega
          simp only [if_neg hgoes]
          exact hyields
        · rwa [reports_append, ← List.append_assoc]
        · rw [hhits, hscanned.hits, List.append_assoc]
    · exact hs.scan_unended hname hpat hne hI h hplain hmem hend hlast hguard hrest

end Scan

section Chunks

theorem fill_eq {k : ℕ} {bytes : List UInt8} (hfit : k + bytes.length ≤ bufSize)
    (h : data.Holds 0 l) (hk : l.length = k) :
    ∃ data', data.fill k bytes = some data' ∧ data'.Holds 0 (l ++ bytes) ∧
      data' bufSize = data bufSize := by
  refine ⟨_, if_pos (Nat.le_succ_of_le hfit), fun j hj ↦ ?_, ?_⟩
  · rw [List.length_append] at hj
    rw [Nat.zero_add]
    dsimp only
    by_cases hin : k ≤ j
    · rw [if_pos ⟨hin, by omega⟩, List.getElem_append_right (by omega),
        List.getD_eq_getElem _ _ (by omega)]
      simp only [hk]
    · have hbyte := h j (by omega)
      rw [Nat.zero_add] at hbyte
      rw [if_neg fun hboth ↦ hin hboth.1, hbyte, List.getElem_append_left]
  · exact if_neg (by omega)

/-- One round of the outer loop: a chunk is read behind the piece that was left, and scanned. -/
theorem Serves.chunk_round (hs : Serves calls fd text I) (hname : Points fname name)
    (hpat : Points s pat) (hne : pat ≠ []) (htext : Plain text) {left bytes : List UInt8}
    (hbytes : chunk text total (bufSize - left.length) = bytes) (hw : Window data left)
    (hI : I total out st) :
    ∃ E st' data' left', I (total + (bufSize - left.length)) (out ++ reports name E) st' ∧
      Scanned pat (left ++ bytes) (text.drop (total + (bufSize - left.length))) bytes.length E
        data' left' ∧
      ∀ res, Yields (fun fuel ↦
        if (bytes.length : ℤ) = 0 then some (st', true)
        else calls.readChunks s fname pat.length fd fuel st' data' left'.length) res →
      Yields (fun fuel ↦ calls.readChunks s fname pat.length fd fuel st data left.length) res := by
  have hshort := hw.short
  obtain ⟨st₁, hread, hI₁⟩ := hs.read (bufSize - left.length) hI (Nat.sub_le _ _)
  rw [hbytes] at hread
  have hlen : bytes.length = min (bufSize - left.length) (text.drop total).length := by
    rw [← hbytes, chunk, List.length_take]
  have hfit : left.length + bytes.length ≤ bufSize := by omega
  obtain ⟨data₁, hfill, hholds, hkept⟩ := fill_eq hfit hw.holds rfl
  have hplain : Plain (left ++ bytes) := by
    intro c hc
    rcases List.mem_append.mp hc with hc | hc
    · exact hw.plain c hc
    · rw [← hbytes, chunk] at hc
      exact htext c (List.mem_of_mem_drop (List.mem_of_mem_take hc))
  have hlast : left.length + ((bytes.length : ℤ)).toNat ≤ bufSize := by omega
  have hend : 0 + (left ++ bytes).length = left.length + ((bytes.length : ℤ)).toNat := by
    rw [List.length_append]
    omega
  have hrest : left.length + ((bytes.length : ℤ)).toNat < bufSize ∨ (bytes.length : ℤ) = 0 →
      text.drop (total + (bufSize - left.length)) = [] := by
    intro hcase
    refine List.eq_nil_of_length_eq_zero ?_
    rw [← List.drop_drop, List.length_drop]
    omega
  obtain ⟨E, st₂, data₂, left₂, hscan, hI₂, hscanned⟩ := hs.scan hname hpat hne hI₁ hholds hplain
    hend hlast (hkept ▸ hw.guard) hrest
  have hcnt : (bytes.length : ℤ) ≠ -1 := by omega
  refine ⟨E, st₂, data₂, left₂, hI₂, hscanned, fun res hres ↦ ?_⟩
  refine (yields_succ_iff fun fuel ↦ ?_).mpr (hscan.bind (k := fun fuel r ↦
    if (bytes.length : ℤ) = 0 then some (r.1, true)
    else calls.readChunks s fname pat.length fd fuel r.1 r.2.1 r.2.2) hres)
  simp only [UserCalls.readChunks, hread, hfill, Option.bind_eq_bind, Option.bind_some,
    if_neg hcnt]

theorem Serves.chunks (hs : Serves calls fd text I) (hname : Points fname name)
    (hpat : Points s pat) (hne : pat ≠ []) (htext : Plain text) {left : List UInt8}
    (hw : Window data left) (hI : I total out st) :
    ∃ st' total', Yields
      (fun fuel ↦ calls.readChunks s fname pat.length fd fuel st data left.length) (st', true) ∧
      I total' (out ++ reports name (grepHits pat (left ++ text.drop total))) st' := by
  generalize hn : (text.drop total).length = n
  induction n using Nat.strong_induction_on generalizing left data st out total with
  | h n ih =>
    have hshort := hw.short
    generalize hbytes : chunk text total (bufSize - left.length) = bytes
    obtain ⟨E, st₁, data₁, left₁, hI₁, hscanned, hround⟩ :=
      hs.chunk_round hname hpat hne htext hbytes hw hI
    have hsplit : bytes ++ text.drop (total + (bufSize - left.length)) = text.drop total := by
      rw [← hbytes, chunk, ← List.drop_drop, List.take_append_drop]
    have hlen := congrArg List.length hsplit
    rw [List.length_append] at hlen
    have hhits := hscanned.hits
    rw [List.append_assoc, hsplit] at hhits
    by_cases hzero : (bytes.length : ℤ) = 0
    · have hdone : text.drop (total + (bufSize - left.length)) = [] := by
        refine List.eq_nil_of_length_eq_zero ?_
        rw [← List.drop_drop, List.length_drop] at hlen ⊢
        omega
      rw [hscanned.ended hzero, hdone, List.append_nil, grepHits_nil hne, List.append_nil] at hhits
      refine ⟨st₁, total + (bufSize - left.length), hround _ ?_, ?_⟩
      · simp only [if_pos hzero]
        exact yields_some
      · rw [hhits]
        exact hI₁
    · obtain ⟨st', total', hyields, hI'⟩ := ih _ (by omega) hscanned.window hI₁ rfl
      refine ⟨st', total', hround _ ?_, ?_⟩
      · simp only [if_neg hzero]
        exact hyields
      · rwa [hhits, reports_append, ← List.append_assoc]

theorem Serves.doOneFile (hs : Serves calls fd text I) (hname : Points fname name)
    (hpat : Points s pat) (hne : pat ≠ []) (htext : Plain text)
    (hguard : data bufSize ≠ '\n'.toUInt8) {st₀ : σ} (hopen : calls.ece391Open fname st₀ = (st, fd))
    (hfd : fd ≠ -1) (hI : I 0 [] st) :
    ∃ st₁ total, I total (reports name (grepHits pat text)) st₁ ∧
      Yields (fun fuel ↦ calls.doOneFile s fname fuel data st₀)
        ((calls.ece391Close fd st₁).1, 0) := by
  obtain ⟨st₁, total, hchunks, hI₁⟩ := hs.chunks hname hpat hne htext (window_nil hguard) hI
  rw [List.nil_append, List.nil_append, List.drop_zero] at hI₁
  refine ⟨st₁, total, hI₁, (strlen_yields (.of_points hpat)).bind ?_⟩
  simp only [hopen, if_neg hfd]
  refine hchunks.bind ?_
  simp only [Bool.true_eq_false, if_false, if_neg (hs.close hI₁)]
  exact yields_some

end Chunks

theorem sanitize_lt (c : UInt8) : sanitize c < 128 := by
  unfold sanitize
  split_ifs with hhidden
  · decide
  · by_contra hge
    rw [UInt8.not_lt] at hge
    refine hhidden ⟨.inr (UInt8.lt_of_lt_of_le (by decide) hge), ?_, ?_⟩
    · rintro rfl
      exact absurd hge (by decide)
    · rintro rfl
      exact absurd hge (by decide)

theorem plain_shown (raw : List UInt8) : Plain (raw.map sanitize) := by
  intro c hc
  obtain ⟨x, -, rfl⟩ := List.mem_map.mp hc
  exact ⟨sanitize_ne_zero x, sanitize_lt x⟩

/-- Of any file, with its characters as `file_read` shows them, `do_one_file` reports the pieces
that have the pattern in them, in the order of the file; it comes to an end and stays within its
buffer. Lines that fit into the buffer are pieces as a whole. The byte behind the buffer must not
be a newline when the function is entered. -/
theorem grep_pieces {raw : List UInt8} (hs : Serves calls fd (raw.map sanitize) I)
    (hname : Points fname name) (hpat : Points s pat) (hne : pat ≠ [])
    (hguard : data bufSize ≠ '\n'.toUInt8) {st₀ : σ} (hopen : calls.ece391Open fname st₀ = (st, fd))
    (hfd : fd ≠ -1) (hI : I 0 [] st) :
    (∃ st₁ total, I total (reports name (grepHits pat (raw.map sanitize))) st₁ ∧
      Yields (fun fuel ↦ calls.doOneFile s fname fuel data st₀)
        ((calls.ece391Close fd st₁).1, 0)) ∧
    ((∀ line ∈ (raw.map sanitize).splitOn '\n'.toUInt8, line.length ≤ bufSize) →
      grepHits pat (raw.map sanitize) =
        ((raw.map sanitize).splitOn '\n'.toUInt8).filter fun line ↦ pat <:+: line) :=
  ⟨hs.doOneFile hname hpat hne (plain_shown raw) hguard hopen hfd hI,
    fun hshort ↦ hits_of_short hne hshort⟩

section Trace

structure GrepTrace where
  pos : ℕ
  written : List (List UInt8)

def traceCalls (text : List UInt8) : UserCalls GrepTrace where
  ece391Open _ st := ({ st with pos := 0 }, 2)
  ece391Read _ n st :=
    let bytes := chunk text st.pos n
    some ({ st with pos := st.pos + n }, bytes.length, bytes)
  ece391Write _ bytes st := { st with written := st.written ++ [bytes] }
  ece391Close _ st := (st, 0)

theorem trace_serves :
    Serves (traceCalls text) 2 text fun total out st ↦ st = ⟨total, out⟩ where
  read n h _ := by
    subst h
    exact ⟨_, rfl, rfl⟩
  write _ h := by
    subst h
    rfl
  close _ := by
    have hzero : (0 : ℤ) ≠ -1 := by decide
    exact hzero

def blankBuffer : LineBuffer := fun _ ↦ 0

/-- One line of 1025 bytes, of which the last two are those that are looked for. -/
def longLine : List UInt8 := List.replicate 1023 'a'.toUInt8 ++ ascii "bc"

theorem longLine_shown : longLine.map sanitize =
    (List.replicate 1023 'a'.toUInt8 ++ ascii "b") ++ ascii "c" := by
  have ha : sanitize 'a'.toUInt8 = 'a'.toUInt8 := by decide
  have hbc : (ascii "bc").map sanitize = ascii "b" ++ ascii "c" := by decide
  rw [longLine, List.map_append, List.map_replicate, ha, hbc, List.append_assoc]

theorem notMem_firstPiece {c : UInt8} (ha : c ≠ 'a'.toUInt8) (hb : c ∉ ascii "b") :
    c ∉ List.replicate 1023 'a'.toUInt8 ++ ascii "b" := by
  intro hmem
  rcases List.mem_append.mp hmem with hmem | hmem
  · exact ha (List.eq_of_mem_replicate hmem)
  · exact hb hmem

theorem length_firstPiece : (List.replicate 1023 'a'.toUInt8 ++ ascii "b").length = bufSize := by
  rw [List.length_append, List.length_replicate]
  rfl

theorem grepHits_longLine : grepHits (ascii "bc") (longLine.map sanitize) = [] := by
  have hfirst : ¬ ascii "bc" <:+: List.replicate 1023 'a'.toUInt8 ++ ascii "b" := by
    intro hin
    have hmem : 'c'.toUInt8 ∈ ascii "bc" := by decide
    exact notMem_firstPiece (by decide) (by decide) (hin.subset hmem)
  have hlast : ¬ ascii "bc" <:+: ascii "c" := fun hin ↦ absurd hin.length_le (by decide)
  rw [longLine_shown, grepHits, hits_full (notMem_firstPiece (by decide) (by decide))
    length_firstPiece (by decide), hits_last (by decide) (by decide) (by decide), hit,
    if_neg hfirst, hit, if_neg hlast]
  rfl

theorem grepHits_secondPiece : grepHits (ascii "c") (longLine.map sanitize) = [ascii "c"] := by
  have hfirst : ¬ ascii "c" <:+: List.replicate 1023 'a'.toUInt8 ++ ascii "b" := by
    intro hin
    have hmem : 'c'.toUInt8 ∈ ascii "c" := by decide
    exact notMem_firstPiece (by decide) (by decide) (hin.subset hmem)
  rw [longLine_shown, grepHits, hits_full (notMem_firstPiece (by decide) (by decide))
    length_firstPiece (by decide), hits_last (by decide) (by decide) (by decide), hit,
    if_neg hfirst, hit, if_pos List.infix_rfl]
  rfl

/-- What is written is the second of the two pieces of the line. -/
theorem grep_pieces_sample : ∃ st₁ total,
    st₁ = ⟨total, [ascii "notes", ascii ":", ascii "c", ascii "\n"]⟩ ∧
    Yields (fun fuel ↦ (traceCalls (longLine.map sanitize)).doOneFile (cstr (ascii "c"))
      (cstr (ascii "notes")) fuel blankBuffer ⟨0, []⟩)
      (((traceCalls (longLine.map sanitize)).ece391Close 2 st₁).1, 0) := by
  have hname : Points (cstr (ascii "notes")) (ascii "notes") := ⟨by decide, fun _ _ ↦ rfl⟩
  have hpat : Points (cstr (ascii "c")) (ascii "c") := ⟨by decide, fun _ _ ↦ rfl⟩
  have hguard : blankBuffer bufSize ≠ '\n'.toUInt8 := by decide
  have hopen : (traceCalls (longLine.map sanitize)).ece391Open (cstr (ascii "notes")) ⟨0, []⟩ =
      (⟨0, []⟩, 2) := rfl
  obtain ⟨⟨st₁, total, hst, hyields⟩, -⟩ :=
    grep_pieces trace_serves hname hpat (by decide) hguard hopen (by decide) rfl
  rw [grepHits_secondPiece] at hst
  exact ⟨st₁, total, hst, hyields⟩

/-- The pattern is in the only line of the file, but across the end of the buffer: nothing is
written. -/
theorem grep_longLine : longLine.map sanitize ∈ (longLine.map sanitize).splitOn '\n'.toUInt8 ∧
    ascii "bc" <:+: longLine.map sanitize ∧
    ∃ total, Yields (fun fuel ↦ (traceCalls (longLine.map sanitize)).doOneFile
      (cstr (ascii "bc")) (cstr (ascii "notes")) fuel blankBuffer ⟨0, []⟩) (⟨total, []⟩, 0) := by
  refine ⟨?_, ⟨List.replicate 1023 'a'.toUInt8, [], ?_⟩, ?_⟩
  · have hline : '\n'.toUInt8 ∉ longLine.map sanitize := by
      rw [longLine_shown, List.mem_append, not_or]
      exact ⟨notMem_firstPiece (by decide) (by decide), by decide⟩
    rw [List.splitOn_eq_singleton hline]
    exact List.mem_singleton_self _
  · rw [longLine_shown, List.append_nil, List.append_assoc]
    rfl
  · have hname : Points (cstr (ascii "notes")) (ascii "notes") := ⟨by decide, fun _ _ ↦ rfl⟩
    have hpat : Points (cstr (ascii "bc")) (ascii "bc") := ⟨by decide, fun _ _ ↦ rfl⟩
    have hne : ascii "bc" ≠ [] := by decide
    obtain ⟨st₁, total, rfl, hyields⟩ : ∃ st₁ total,
        st₁ = ⟨total, reports (ascii "notes") (grepHits (ascii "bc") (longLine.map sanitize))⟩ ∧
        Yields (fun fuel ↦ (traceCalls (longLine.map sanitize)).doOneFile (cstr (ascii "bc"))
          (cstr (ascii "notes")) fuel blankBuffer ⟨0, []⟩)
          (((traceCalls (longLine.map sanitize)).ece391Close 2 st₁).1, 0) :=
      trace_serves.doOneFile hname hpat hne (plain_shown longLine) (by decide) rfl (by decide) rfl
    rw [grepHits_longLine] at hyields
    exact ⟨total, hyields⟩

end Trace

end ApollOS
