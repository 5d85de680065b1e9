import ApollOS.Programs.Copying

namespace ApollOS

open Function Fuel

/-- The system calls of a shell. The fuel of `ece391Execute` is for the program that is started. -/
structure ShellCalls (σ : Type) extends LibraryCalls σ where
  ece391Execute : ℕ → (ℕ → UInt8) → σ → Option (σ × ℤ)

def ece391Strcmp (s₁ s₂ : Ptr) : ℕ → ℕ → Option ℤ
  | 0, _ => none
  | fuel + 1, i => do
    let c₁ ← s₁ i
    let c₂ ← s₂ i
    if c₁ = c₂ then
      if c₁ = 0 then some 0 else ece391Strcmp s₁ s₂ fuel (i + 1)
    else some (c₁.toNat - c₂.toNat)

namespace CharArray

variable (buf : CharArray) (size : ℕ)

def ptr : Ptr := fun i ↦ if i < size then some (buf i) else none

def chomp (cnt : ℤ) : Option ℤ :=
  if 0 < cnt then do
    let last ← index (cnt - 1)
    let c ← buf.ptr size last
    some (if c = '\n'.toUInt8 then cnt - 1 else cnt)
  else some cnt

end CharArray

def shellPrompt : List UInt8 := ascii "391OS> "

namespace ShellCalls

variable {σ : Type} (calls : ShellCalls σ)

def ask (fuel : ℕ) (buf : CharArray) (st : σ) : Option (σ × Option CharArray) := do
  let st ← calls.ece391Fdputs fuel 1 (UserCalls.message shellPrompt) st
  let (st, cnt, bytes) ← calls.ece391Read 0 (bufSize - 1) st
  let buf ← buf.fill bufSize bytes
  if cnt = -1 then some (st, none)
  else
    let cnt ← buf.chomp bufSize cnt
    let n ← index cnt
    let buf ← buf.stores bufSize n [0]
    some (st, some buf)

def judge (fuel : ℕ) (rval : ℤ) (st : σ) : Option σ :=
  if rval = -1 then calls.ece391Fdputs fuel 1 (UserCalls.message (ascii "no such command\n")) st
  else if rval = 256 then
    calls.ece391Fdputs fuel 1 (UserCalls.message (ascii "program terminated by exception\n")) st
  else if rval ≠ 0 then
    calls.ece391Fdputs fuel 1 (UserCalls.message (ascii "program terminated abnormally\n")) st
  else some st

def shellLoop : ℕ → CharArray → σ → Option (σ × ℤ)
  | 0, _, _ => none
  | fuel + 1, buf, st => do
    let (st, line) ← calls.ask fuel buf st
    match line with
    | none => calls.complain fuel (ascii "read from keyboard failed\n") 3 st
    | some buf =>
      let r ← ece391Strcmp (buf.ptr bufSize) (UserCalls.message (ascii "exit")) fuel 0
      if r = 0 then some (st, 0)
      else if buf 0 = 0 then shellLoop fuel buf st
      else
        let (st, rval) ← calls.ece391Execute fuel buf st
        let st ← calls.judge fuel rval st
        shellLoop fuel buf st

end ShellCalls

variable {s₁ s₂ : Ptr} {l l' line text : List UInt8} {i : ℕ} {buf : CharArray} {σ : Type}
  {calls : ShellCalls σ} {st : σ} {rval : ℤ}

theorem strcmp_yields (h : Spells (fun j ↦ s₁ (i + j)) l) (h' : Spells (fun j ↦ s₂ (i + j)) l') :
    ∃ r, Yields (fun fuel ↦ ece391Strcmp s₁ s₂ fuel i) r ∧ (r = 0 ↔ l = l') := by
  induction l generalizing i l' with
  | nil =>
    have hstop : s₁ i = some 0 := h.stop
    cases l' with
    | nil =>
      have hstop' : s₂ i = some 0 := h'.stop
      refine ⟨0, .of_succ fun fuel ↦ ?_, iff_of_true rfl rfl⟩
      simp [ece391Strcmp, hstop, hstop']
    | cons d l' =>
      have hd : s₂ i = some d := h'.bytes 0 (Nat.succ_pos _)
      have hne : (0 : UInt8) ≠ d := fun he ↦ h'.nonzero (he ▸ List.mem_cons_self)
      refine ⟨_, .of_succ fun fuel ↦ ?_, iff_of_false (toNat_sub_ne_zero hne) (by simp)⟩
      simp only [ece391Strcmp, hstop, hd, Option.bind_eq_bind, Option.bind_some, if_neg hne]
  | cons c l ih =>
    have hc : s₁ i = some c := h.bytes 0 (Nat.succ_pos _)
    have hzero : c ≠ 0 := fun he ↦ h.nonzero (he ▸ List.mem_cons_self)
    cases l' with
    | nil =>
      have hstop : s₂ i = some 0 := h'.stop
      refine ⟨_, .of_succ fun fuel ↦ ?_, iff_of_false (toNat_sub_ne_zero hzero) (by simp)⟩
      simp only [ece391Strcmp, hstop, hc, Option.bind_eq_bind, Option.bind_some, if_neg hzero]
    | cons d l' =>
      have hd : s₂ i = some d := h'.bytes 0 (Nat.succ_pos _)
      by_cases he : c = d
      · subst he
        have htail := h.tail
        have htail' := h'.tail
        rw [shift_succ] at htail htail'
        obtain ⟨r, hyields, hr⟩ := ih htail htail'
        refine ⟨r, (yields_succ_iff fun fuel ↦ ?_).mpr hyields, ?_⟩
        · simp only [ece391Strcmp, hc, hd, Option.bind_eq_bind, Option.bind_some, if_true,
            if_neg hzero]
        · rw [hr, List.cons.injEq, and_iff_right rfl]
      · refine ⟨_, .of_succ fun fuel ↦ ?_, iff_of_false (toNat_sub_ne_zero he) fun hl ↦ ?_⟩
        · simp only [ece391Strcmp, hc, hd, Option.bind_eq_bind, Option.bind_some, if_neg he]
        · exact he (List.cons.inj hl).1

section Line

theorem CharArray.spells_ptr {size : ℕ} (h : Points buf line) (hlen : line.length < size) :
    Spells (buf.ptr size) line where
  bytes i hi := by
    rw [ptr, if_pos (hi.trans hlen), h.agrees i hi.le, cstr, List.getD_eq_getElem _ _ hi]
  stop := by
    rw [ptr, if_pos hlen, h.agrees _ le_rfl, cstr, List.getD_eq_default _ _ le_rfl]
  nonzero := h.nonzero

/-- A line that the shell can take from the keyboard: it has no line break of its own. -/
structure Typable (line : List UInt8) : Prop where
  printable : ∀ c ∈ line, 32 ≤ c ∧ c ≤ 126
  fits : line.length < keyBufferSize

theorem Typable.ne (h : Typable line) {c : UInt8} (hc : c ∈ line) : c ≠ 0 ∧ c ≠ 10 := by
  have hle := UInt8.le_iff_toNat_le.mp (h.printable c hc).1
  refine ⟨?_, ?_⟩
  · rintro rfl
    exact absurd hle (by decide)
  · rintro rfl
    exact absurd hle (by decide)

theorem Typable.nonzero (h : Typable line) : 0 ∉ line := fun hc ↦ (h.ne hc).1 rfl

theorem Typable.lt_bufSize (h : Typable line) : line.length < bufSize :=
  h.fits.trans (show keyBufferSize < bufSize by decide)

theorem Typable.taken (buf : CharArray) (h : Typable line) : ∃ buf' buf'' : CharArray,
    buf.fill bufSize line = some buf' ∧ buf'.chomp bufSize line.length = some (line.length : ℤ) ∧
      buf'.stores bufSize line.length [0] = some buf'' ∧ Points buf'' line := by
  have hlen := h.lt_bufSize
  refine ⟨_, _, if_pos hlen.le, ?_, if_pos hlen, h.nonzero, fun i hi ↦ ?_⟩
  · rw [CharArray.chomp]
    split_ifs with hpos
    · have hlast : line.length - 1 < line.length := by omega
      have hindex : index ((line.length : ℤ) - 1) = some (line.length - 1) := by
        rw [index, if_pos (by omega)]
        congr 1
        omega
      have hchar : line.getD (line.length - 1) (buf (line.length - 1)) ≠ '\n'.toUInt8 := by
        rw [List.getD_eq_getElem _ _ hlast]
        exact (h.ne (List.getElem_mem hlast)).2
      simp only [hindex, Option.bind_eq_bind, Option.bind_some, CharArray.ptr,
        if_pos (hlast.trans hlen), if_neg hchar]
    · rfl
  · rcases hi.lt_or_eq with hi | rfl
    · rw [if_neg (Nat.not_le.mpr hi), cstr, List.getD_eq_getElem _ _ hi]
      exact List.getD_eq_getElem _ _ hi
    · rw [if_pos le_rfl, Nat.sub_self, cstr, List.getD_eq_default _ _ le_rfl]
      rfl

end Line

section Session

def verdict (rval : ℤ) : List UInt8 :=
  if rval = -1 then ascii "no such command\n"
  else if rval = 256 then ascii "program terminated by exception\n"
  else if rval ≠ 0 then ascii "program terminated abnormally\n" else []

/-- A line, what is printed when it is executed, what `execute` returns, and whether a program is
started. -/
structure Round where
  line : List UInt8
  printed : List UInt8
  rval : ℤ
  started : Bool

def Round.shown (x : Round) : List UInt8 :=
  shellPrompt ++ x.line ++ ['\n'.toUInt8] ++ x.printed ++ verdict x.rval

def starts (rounds : List Round) : ℕ := (rounds.map fun x ↦ x.started.toNat).sum

/-- A round in which nothing is typed, or something that is answered. -/
def Answered (Answers : Round → Prop) (x : Round) : Prop :=
  x = ⟨[], [], 0, false⟩ ∨ x.line ≠ [] ∧ x.line ≠ ascii "exit" ∧ Answers x

/-- What a shell can rely on: `I n lines out st` says that there is room for `n` programs, one after
the other, that the user is going to type `lines` and that `out` has appeared on the terminal. -/
structure Hosts (calls : ShellCalls σ) (Answers : Round → Prop)
    (I : ℕ → List (List UInt8) → List UInt8 → σ → Prop) : Prop where
  write : ∀ {n lines out st bytes}, 0 ∉ bytes → I n lines out st → ∃ st',
    calls.ece391Write 1 bytes st = (st', (bytes.length : ℤ)) ∧ I n lines (out ++ bytes) st'
  read : ∀ {n line lines out st}, I n (line :: lines) out st → ∃ st',
    calls.ece391Read 0 (bufSize - 1) st = some (st', (line.length : ℤ), line) ∧ Typable line ∧
    I n lines (out ++ (line ++ ['\n'.toUInt8])) st'
  execute : ∀ {n x lines out st buf}, Answers x → Typable x.line → Points buf x.line →
    I (n + x.started.toNat) lines out st → ∃ st',
      Yields (fun fuel ↦ calls.ece391Execute fuel buf st) (st', x.rval) ∧
      I n lines (out ++ x.printed) st'

namespace Hosts

variable {Answers : Round → Prop} {lines later : List (List UInt8)} {n : ℕ}
  {I : ℕ → List (List UInt8) → List UInt8 → σ → Prop} {out : List UInt8} {rounds : List Round}

theorem puts (hs : Hosts calls Answers I) (hnul : 0 ∉ text) (h : I n lines out st) : ∃ st',
    Yields (fun fuel ↦ calls.ece391Fdputs fuel 1 (UserCalls.message text) st) st' ∧
      I n lines (out ++ text) st' := by
  obtain ⟨st', hwrite, hI⟩ := hs.write hnul h
  refine ⟨st', ?_, hI⟩
  have hyields : Yields (fun fuel ↦ calls.ece391Fdputs fuel 1 (UserCalls.message text) st)
      (calls.ece391Write 1 text st).1 :=
    fdputs_yields (spells_message hnul)
  rwa [hwrite] at hyields

theorem ask (hs : Hosts calls Answers I) (buf : CharArray) (h : I n (line :: lines) out st) :
    ∃ st' buf', Yields (fun fuel ↦ calls.ask fuel buf st) (st', some buf') ∧ Typable line ∧
      Points buf' line ∧ I n lines (out ++ (shellPrompt ++ line ++ ['\n'.toUInt8])) st' := by
  obtain ⟨st₁, hputs, h₁⟩ := hs.puts (show 0 ∉ shellPrompt by decide) h
  obtain ⟨st₂, hread, htyp, h₂⟩ := hs.read h₁
  obtain ⟨buf₁, buf₂, hfill, hchomp, hstores, hpoints⟩ := htyp.taken buf
  refine ⟨st₂, buf₂, hputs.bind ?_, htyp, hpoints, ?_⟩
  · have hfail : ¬ (line.length : ℤ) = -1 := by omega
    have hindex : index line.length = some line.length := if_pos (Int.natCast_nonneg _)
    simp only [hread, Option.bind_eq_bind, Option.bind_some, hfill, if_neg hfail, hchomp, hindex,
      hstores]
    exact yields_some
  · simpa only [List.append_assoc] using h₂

theorem judge (hs : Hosts calls Answers I) (rval : ℤ) (h : I n lines out st) : ∃ st',
    Yields (fun fuel ↦ calls.judge fuel rval st) st' ∧ I n lines (out ++ verdict rval) st' := by
  simp only [ShellCalls.judge, verdict]
  split_ifs
  · exact hs.puts (by decide) h
  · exact hs.puts (by decide) h
  · exact hs.puts (by decide) h
  · refine ⟨st, yields_some, ?_⟩
    rwa [List.append_nil]

theorem compares (hpoints : Points buf line) (htyp : Typable line) : ∃ r,
    Yields (fun fuel ↦ ece391Strcmp (buf.ptr bufSize) (UserCalls.message (ascii "exit")) fuel 0) r ∧
      (r = 0 ↔ line = ascii "exit") := by
  have hline := CharArray.spells_ptr hpoints htyp.lt_bufSize
  have hexit : Spells (UserCalls.message (ascii "exit")) (ascii "exit") :=
    spells_message (by decide)
  refine strcmp_yields ?_ ?_
  · simpa only [Nat.zero_add] using hline
  · simpa only [Nat.zero_add] using hexit

theorem leaves (hs : Hosts calls Answers I) (buf : CharArray)
    (h : I n (ascii "exit" :: lines) out st) : ∃ st',
      Yields (fun fuel ↦ calls.shellLoop fuel buf st) (st', 0) ∧
      I n lines (out ++ (shellPrompt ++ ascii "exit\n")) st' := by
  obtain ⟨st', buf', hask, htyp, hpoints, hI⟩ := hs.ask buf h
  obtain ⟨r, hcmp, hr⟩ := compares hpoints htyp
  obtain rfl := hr.mpr rfl
  refine ⟨st', (yields_succ_iff fun fuel ↦ rfl).mpr (hask.bind (hcmp.bind ?_)), ?_⟩
  · exact yields_some
  · exact hI

theorem round (hs : Hosts calls Answers I) {x : Round} (hx : Answered Answers x) (buf : CharArray)
    (h : I (n + x.started.toNat) (x.line :: lines) out st) :
    ∃ st' buf', I n lines (out ++ x.shown) st' ∧
      ∀ {res}, Yields (fun fuel ↦ calls.shellLoop fuel buf' st') res →
        Yields (fun fuel ↦ calls.shellLoop fuel buf st) res := by
  obtain ⟨st₁, buf₁, hask, htyp, hpoints, h₁⟩ := hs.ask buf h
  obtain ⟨r, hcmp, hr⟩ := compares hpoints htyp
  rcases hx with rfl | ⟨hne, hexit, hanswers⟩
  · have hr0 : r ≠ 0 := mt hr.mp (by decide)
    have hzero : buf₁ 0 = 0 := hpoints.agrees 0 le_rfl
    refine ⟨st₁, buf₁, ?_, fun {res} hrest ↦ ?_⟩
    · have hverdict : verdict 0 = [] := by decide
      rwa [Round.shown, hverdict, List.append_nil, List.append_nil]
    · refine (yields_succ_iff fun fuel ↦ rfl).mpr (hask.bind (hcmp.bind ?_))
      simp only [if_neg hr0, if_pos hzero]
      exact hrest
  · have hr0 : r ≠ 0 := mt hr.mp hexit
    have hfirst : buf₁ 0 ≠ 0 := by
      have hpos := List.length_pos_iff.mpr hne
      rw [hpoints.agrees 0 hpos.le, cstr, List.getD_eq_getElem _ _ hpos]
      exact (htyp.ne (List.getElem_mem hpos)).1
    obtain ⟨st₂, hexec, h₂⟩ := hs.execute hanswers htyp hpoints h₁
    obtain ⟨st₃, hjudge, h₃⟩ := hs.judge x.rval h₂
    refine ⟨st₃, buf₁, ?_, fun {res} hrest ↦ ?_⟩
    · simpa only [Round.shown, List.append_assoc] using h₃
    · refine (yields_succ_iff fun fuel ↦ rfl).mpr (hask.bind (hcmp.bind ?_))
      simp only [if_neg hr0, if_neg hfirst]
      exact hexec.bind (hjudge.bind hrest)

/-- The shell answers line after line until it is told to leave. -/
theorem shellLoop (hs : Hosts calls Answers I) (hrounds : ∀ x ∈ rounds, Answered Answers x)
    (buf : CharArray)
    (h : I (n + starts rounds) (rounds.map Round.line ++ ascii "exit" :: later) out st) : ∃ st',
      Yields (fun fuel ↦ calls.shellLoop fuel buf st) (st', 0) ∧
      I n later (out ++ (rounds.flatMap Round.shown ++ (shellPrompt ++ ascii "exit\n"))) st' := by
  induction rounds generalizing buf out st with
  | nil => exact hs.leaves buf h
  | cons x rounds ih =>
    rw [starts, List.map_cons, List.sum_cons, Nat.add_comm x.started.toNat, ← Nat.add_assoc] at h
    obtain ⟨st₁, buf₁, h₁, hback⟩ := hs.round (hrounds x List.mem_cons_self) buf h
    obtain ⟨st', hyields, hI⟩ := ih (fun y hy ↦ hrounds y (List.mem_cons_of_mem x hy)) buf₁ h₁
    refine ⟨st', hback hyields, ?_⟩
    simpa only [List.flatMap_cons, List.append_assoc] using hI

end Hosts

end Session

end ApollOS
