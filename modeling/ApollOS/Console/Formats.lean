import ApollOS.Console.Numerals

namespace ApollOS

open Fuel

section Grammar

/-- A part of a format: a character that stands for itself, a conversion with the number of
`#` in it, or a conversion that the end of the format cuts off. -/
inductive Piece
  | literal (c : UInt8)
  | conversion (sharps : ℕ) (c : UInt8)
  | unfinished (sharps : ℕ)
  deriving DecidableEq

inductive ArgKind
  | word | string
  deriving DecidableEq

inductive Arg
  | word (v : UInt32)
  | string (text : List UInt8)

/-- The parts of a format, or of what is left of one behind a percent sign and so many `#`. -/
def pieces : Option ℕ → List UInt8 → List Piece
  | none, [] => []
  | some sharps, [] => [.unfinished sharps]
  | none, c :: text =>
    if c = '%'.toUInt8 then pieces (some 0) text else .literal c :: pieces none text
  | some sharps, c :: text =>
    if c = '#'.toUInt8 then pieces (some (sharps + 1)) text
    else .conversion sharps c :: pieces none text

def Arg.kind : Arg → ArgKind
  | .word _ => .word
  | .string _ => .string

namespace Piece

def isUnfinished : Piece → Bool
  | .unfinished _ => true
  | _ => false

/-- The kind of argument that a part of a format asks for. -/
def asks : Piece → Option ArgKind
  | .conversion _ c =>
    match specifier c with
    | .hex | .unsigned | .signed | .char => some .word
    | .string => some .string
    | .percent | .sharp | .other => none
  | _ => none

/-- What the documentation of `printf` has a part of a format print. -/
def render : Piece → Option Arg → List UInt8
  | .literal c, _ => [c]
  | .conversion sharps c, arg =>
    match specifier c, arg with
    | .percent, _ => ['%'.toUInt8]
    | .hex, some (.word v) => if sharps = 0 then numeral 16 v.toNat else paddedHex v
    | .unsigned, some (.word v) => numeral 10 v.toNat
    | .signed, some (.word v) => signedNumeral v.toInt32
    | .char, some (.word v) => [v.toUInt8]
    | .string, some (.string text) => text
    | _, _ => []
  | .unfinished _, _ => []

end Piece

def render : List Piece → List Arg → List UInt8
  | [], _ => []
  | piece :: rest, args =>
    match piece.asks with
    | none => piece.render none ++ render rest args
    | some _ => piece.render args.head? ++ render rest args.tail

end Grammar

section Run

variable {call : PrintfCall} {s s' r : PrintfState} {c : UInt8} {text : List UInt8}
  {arg : Option Arg} {args : List Arg} {mode : Option ℕ} {sharps : ℕ}

namespace PrintfCall

/-- A word on the stack that an argument has been passed in. -/
def Holds (call : PrintfCall) (word : UInt32) : Arg → Prop
  | .word v => word = v
  | .string text => Points (call.memory word) text

/-- A call with a format and the arguments that its conversions ask for. -/
structure Given (call : PrintfCall) (text : List UInt8) (args : List Arg) : Prop where
  format : Points call.format text
  kinds : args.map Arg.kind = (pieces none text).filterMap Piece.asks
  passed : ∀ i a, args[i]? = some a → call.Holds (call.stack i) a

/-- The main loop of `printf` in one state goes on as in the other. -/
def LoopsTo (call : PrintfCall) (s s' : PrintfState) : Prop :=
  ∀ r, Yields (fun fuel ↦ call.printfLoop fuel s) r ↔ Yields (fun fuel ↦ call.printfLoop fuel s') r

/-- The same from the inner `switch` on, behind a percent sign and so many `#`. -/
def RunsTo (call : PrintfCall) : Option ℕ → PrintfState → PrintfState → Prop
  | none, s, s' => call.LoopsTo s s'
  | some sharps, s, s' => ∃ s₁,
    Yields (fun fuel ↦ call.formatCharSwitch fuel (0 < sharps) s) s₁ ∧ call.LoopsTo s₁.nextChar s'

theorem Holds.word {word : UInt32} (hkind : arg.map Arg.kind = some .word)
    (hheld : ∀ a, arg = some a → call.Holds word a) : arg = some (.word word) := by
  obtain ⟨a, rfl, ha⟩ := Option.map_eq_some_iff.mp hkind
  cases a with
  | word v =>
    have hword : word = v := hheld _ rfl
    rw [hword]
  | string text => cases ha

theorem Holds.string {word : UInt32} (hkind : arg.map Arg.kind = some .string)
    (hheld : ∀ a, arg = some a → call.Holds word a) :
    ∃ text, arg = some (.string text) ∧ Points (call.memory word) text := by
  obtain ⟨a, rfl, ha⟩ := Option.map_eq_some_iff.mp hkind
  cases a with
  | word v => cases ha
  | string text => exact ⟨text, rfl, hheld _ rfl⟩

theorem printString_yields (h : Points (call.memory (call.stack s.esp)) text) : ∃ s',
    Yields (fun fuel ↦ call.printString fuel s) s' ∧ s.Did 0 1 text s' := by
  refine ⟨_, h.putsBytes.map fun text ↦ (s.puts text).nextArg, ?_⟩
  have hputs : s.Did 0 0 text (s.puts text) := .puts
  have hdid := hputs.trans .nextArg
  rwa [List.append_nil] at hdid

theorem formatCharSwitch_yields (hc : call.format s.buf = c) (hsharp : specifier c ≠ .sharp)
    (hkind : arg.map Arg.kind = (Piece.conversion sharps c).asks)
    (hheld : ∀ a, arg = some a → call.Holds (call.stack s.esp) a) : ∃ s',
    Yields (fun fuel ↦ call.formatCharSwitch fuel (0 < sharps) s) s' ∧
    s.Did 0 arg.toList.length ((Piece.conversion sharps c).render arg) s' := by
  subst hc
  have hread : s.Did 0 0 [] s.read := .read
  have hof {next : ℕ → Option PrintfState} {out : List UInt8}
      (hround : ∀ fuel, call.formatCharSwitch (fuel + 1) (0 < sharps) s = next fuel)
      (hnext : ∃ s', Yields next s' ∧ s.read.Did 0 arg.toList.length out s') : ∃ s',
      Yields (fun fuel ↦ call.formatCharSwitch fuel (0 < sharps) s) s' ∧
      s.Did 0 arg.toList.length out s' := by
    obtain ⟨s', hyields, hdid⟩ := hnext
    refine ⟨s', (yields_succ_iff hround).mpr hyields, ?_⟩
    simpa only [Nat.zero_add, List.nil_append] using hread.trans hdid
  cases hspec : specifier (call.format s.buf) with
  | sharp => exact absurd hspec hsharp
  | percent =>
    simp only [Piece.asks, hspec, Option.map_eq_none_iff] at hkind
    subst hkind
    simp only [Piece.render, hspec]
    exact hof (fun fuel ↦ by rw [formatCharSwitch, hspec]) ⟨_, yields_some, .putc⟩
  | hex =>
    simp only [Piece.asks, hspec] at hkind
    obtain rfl := Holds.word hkind hheld
    simp only [Piece.render, hspec]
    by_cases hplain : sharps = 0
    · rw [if_pos hplain]
      exact hof (fun fuel ↦ by simp [formatCharSwitch, hspec, hplain]) printHex_yields
    · rw [if_neg hplain]
      have halternate : 0 < sharps := Nat.pos_of_ne_zero hplain
      exact hof (fun fuel ↦ by simp [formatCharSwitch, hspec, halternate]) printHex8_yields
  | unsigned =>
    simp only [Piece.asks, hspec] at hkind
    obtain rfl := Holds.word hkind hheld
    simp only [Piece.render, hspec]
    exact hof (fun fuel ↦ by rw [formatCharSwitch, hspec]) printUnsigned_yields
  | signed =>
    simp only [Piece.asks, hspec] at hkind
    obtain rfl := Holds.word hkind hheld
    simp only [Piece.render, hspec]
    exact hof (fun fuel ↦ by rw [formatCharSwitch, hspec]) printSigned_yields
  | char =>
    simp only [Piece.asks, hspec] at hkind
    obtain rfl := Holds.word hkind hheld
    simp only [Piece.render, hspec]
    exact hof (fun fuel ↦ by rw [formatCharSwitch, hspec])
      ⟨_, yields_some, PrintfState.Did.putc.trans .nextArg⟩
  | string =>
    simp only [Piece.asks, hspec] at hkind
    obtain ⟨text, rfl, htext⟩ := Holds.string hkind hheld
    simp only [Piece.render, hspec]
    exact hof (fun fuel ↦ by rw [formatCharSwitch, hspec]) (printString_yields htext)
  | other =>
    simp only [Piece.asks, hspec, Option.map_eq_none_iff] at hkind
    subst hkind
    simp only [Piece.render, hspec]
    exact hof (fun fuel ↦ by rw [formatCharSwitch, hspec]) ⟨_, yields_some, .refl⟩

theorem specifier_sharp_iff : specifier c = .sharp ↔ c = '#'.toUInt8 := by
  rw [specifier]
  split_ifs with h₁ h₂ <;> simp_all
  decide

theorem split_args {piece : Piece} {rest : List Piece}
    (hkinds : args.map Arg.kind = (piece :: rest).filterMap Piece.asks) : ∃ arg args',
    args = arg.toList ++ args' ∧ arg.map Arg.kind = piece.asks ∧
    args'.map Arg.kind = rest.filterMap Piece.asks ∧
    render (piece :: rest) args = piece.render arg ++ render rest args' := by
  cases hasks : piece.asks with
  | none =>
    rw [List.filterMap_cons_none hasks] at hkinds
    refine ⟨none, args, rfl, rfl, hkinds, ?_⟩
    rw [render, hasks]
  | some kind =>
    rw [List.filterMap_cons_some hasks] at hkinds
    obtain ⟨a, args', rfl, rfl, hrest⟩ := List.map_eq_cons_iff.mp hkinds
    refine ⟨some a, args', rfl, rfl, hrest, ?_⟩
    rw [render, hasks]
    rfl

/-- `printf` goes through a format part by part, and over the NUL behind it if it ends
inside a conversion. -/
theorem runsTo (hformat : Points (fun i ↦ call.format (s.buf + i)) text)
    (hkinds : args.map Arg.kind = (pieces mode text).filterMap Piece.asks)
    (hpassed : ∀ i a, args[i]? = some a → call.Holds (call.stack (s.esp + i)) a) : ∃ s',
    call.RunsTo mode s s' ∧
    s.Did (text.length + (pieces mode text).countP Piece.isUnfinished) args.length
      (render (pieces mode text) args) s' := by
  induction text generalizing mode s args with
  | nil =>
    cases mode with
    | none =>
      obtain rfl := List.map_eq_nil_iff.mp hkinds
      exact ⟨s, fun _ ↦ Iff.rfl, .refl⟩
    | some sharps =>
      obtain rfl := List.map_eq_nil_iff.mp hkinds
      have hnul : call.format s.buf = 0 := hformat.agrees 0 le_rfl
      have hnone : (none : Option Arg).map Arg.kind = (Piece.conversion sharps 0).asks := rfl
      obtain ⟨s₁, hyields, hdid⟩ := formatCharSwitch_yields hnul (by decide) hnone (by simp)
      exact ⟨s₁.nextChar, ⟨s₁, hyields, fun _ ↦ Iff.rfl⟩, hdid.trans .nextChar⟩
  | cons c text ih =>
    have hat : call.format s.buf = c := hformat.head
    have hrest : Points (fun i ↦ call.format (s.buf + 1 + i)) text := by
      simpa only [Nat.add_assoc, Nat.add_comm 1] using hformat.tail
    cases mode with
    | none =>
      rw [pieces] at hkinds ⊢
      split_ifs at hkinds ⊢ with hc
      · obtain ⟨s', ⟨s₁, hyields, hloop⟩, hdid⟩ := ih (s := s.read.nextChar) hrest hkinds hpassed
        refine ⟨s', fun r ↦ ?_, .skip hdid⟩
        have hround (fuel : ℕ) : call.printfLoop (fuel + 1) s =
            (call.formatCharSwitch fuel (0 < 0) s.read.nextChar).bind
              fun s ↦ call.printfLoop fuel s.nextChar := by
          simp only [printfLoop, hat, if_neg hformat.head_ne_zero, if_pos hc]
          rfl
        exact (yields_succ_iff hround).trans (hyields.bind_iff.trans (hloop r))
      · obtain ⟨s', hloop, hdid⟩ := ih (s := (s.read.putc c).nextChar) hrest hkinds hpassed
        refine ⟨s', fun r ↦ (yields_succ_iff fun fuel ↦ ?_).trans (hloop r), ?_⟩
        · simp only [printfLoop, hat, if_neg hformat.head_ne_zero, if_neg hc]
        · have hput : s.Did 0 0 [c] (s.read.putc c) := PrintfState.Did.read.trans .putc
          rw [List.countP_cons_of_neg (by simp [Piece.isUnfinished]), ← Nat.zero_add args.length]
          exact hput.char hdid
    | some sharps =>
      rw [pieces] at hkinds ⊢
      split_ifs at hkinds ⊢ with hc
      · obtain ⟨s', ⟨s₁, hyields, hloop⟩, hdid⟩ := ih (s := s.read.nextChar) hrest hkinds hpassed
        refine ⟨s', ⟨s₁, (yields_succ_iff fun fuel ↦ ?_).mpr hyields, hloop⟩, .skip hdid⟩
        rw [formatCharSwitch, hat, specifier_sharp_iff.mpr hc]
        simp
      · obtain ⟨arg, rest, rfl, hkind, hkinds, hrender⟩ := split_args hkinds
        obtain ⟨s₁, hyields, hdid₁⟩ := formatCharSwitch_yields hat
          (specifier_sharp_iff.not.mpr hc) hkind fun a ha ↦ hpassed 0 a (by simp [ha])
        have hbuf : s₁.nextChar.buf = s.buf + 1 := congrArg (· + 1) hdid₁.buf
        have hesp : s₁.nextChar.esp = s.esp + arg.toList.length := hdid₁.esp
        rw [← hbuf] at hrest
        obtain ⟨s', hloop, hdid⟩ := ih hrest hkinds fun i a hi ↦ by
          rw [hesp, Nat.add_assoc]
          refine hpassed _ a ?_
          rwa [List.getElem?_append_right (Nat.le_add_right _ _), Nat.add_sub_cancel_left]
        rw [hrender, List.length_append, List.countP_cons_of_neg (by simp [Piece.isUnfinished])]
        exact ⟨s', ⟨s₁, hyields, hloop⟩, hdid₁.char hdid⟩

/-- What `printf` is to have done when it returns: no look behind the NUL, each argument
taken once, and the rendering of the format printed. -/
structure Renders (text : List UInt8) (args : List Arg) (result : PrintfState) : Prop where
  reads : ∀ i ∈ result.reads, i ≤ text.length
  esp : result.esp = args.length
  sent : result.sent = render (pieces none text) args

theorem Given.runsTo (h : call.Given text args) : ∃ s', call.LoopsTo ⟨0, 0, [], [], []⟩ s' ∧
    PrintfState.Did ⟨0, 0, [], [], []⟩
      (text.length + (pieces none text).countP Piece.isUnfinished) args.length
      (render (pieces none text) args) s' :=
  PrintfCall.runsTo (s := ⟨0, 0, [], [], []⟩) (by simpa only [Nat.zero_add] using h.format) h.kinds
    (by simpa only [Nat.zero_add] using h.passed)

theorem Given.printf_yields (h : call.Given text args)
    (hfinished : ∀ piece ∈ pieces none text, piece.isUnfinished = false) : ∃ result,
    Yields call.printf result ∧ Renders text args result ∧ ∀ w ∈ result.stores, w.2 < w.1 := by
  obtain ⟨s', hloop, hdid⟩ := h.runsTo
  have hcount : (pieces none text).countP Piece.isUnfinished = 0 :=
    List.countP_eq_zero.mpr fun piece hp ↦ by simp [hfinished piece hp]
  have hbuf : s'.buf = text.length := by
    rw [hdid.buf, hcount]
    exact Nat.zero_add _
  have hnul : call.format s'.buf = 0 := by
    rw [hbuf, h.format.agrees _ le_rfl, cstr, List.getD_eq_default _ _ le_rfl]
  have hend := hdid.trans .read
  refine ⟨s'.read, (hloop _).mpr (.of_succ fun fuel ↦ if_pos hnul), ⟨fun i hi ↦ ?_, ?_, ?_⟩, ?_⟩
  · rcases hend.reads i hi with hi | hi
    · cases hi
    · exact hi.trans hbuf.le
  · exact hend.esp.trans (Nat.zero_add _)
  · exact hend.sent.trans ((List.nil_append _).trans (List.append_nil _))
  · intro w hw
    exact (hend.stores w hw).resolve_left (List.not_mem_nil)

theorem putsConvBuf_reads {fuel size p : ℕ} {b : Buffer}
    (h : putsConvBuf fuel size b p s = some s') : s'.reads = s.reads := by
  obtain ⟨text, -, rfl⟩ := Option.map_eq_some_iff.mp h
  rfl

theorem printNumber_reads {fuel size p : ℕ} {filled : Option Buffer}
    (h : (filled.bind fun convBuf ↦ putsConvBuf fuel size convBuf p s) = some s') :
    s'.reads = s.reads := by
  obtain ⟨b, -, hputs⟩ := Option.bind_eq_some_iff.mp h
  exact putsConvBuf_reads hputs

theorem printHex8_reads {fuel : ℕ} (h : call.printHex8 fuel s = some s') : s'.reads = s.reads := by
  obtain ⟨b, -, hpadded⟩ := Option.bind_eq_some_iff.mp h
  obtain ⟨startingIndex, -, hputs⟩ := Option.bind_eq_some_iff.mp hpadded
  exact putsConvBuf_reads hputs

theorem printString_reads {fuel : ℕ} (h : call.printString fuel s = some s') :
    s'.reads = s.reads := by
  obtain ⟨text, -, rfl⟩ := Option.map_eq_some_iff.mp h
  rfl

theorem formatCharSwitch_reads {fuel : ℕ} {alternate : Bool}
    (h : call.formatCharSwitch fuel alternate s = some s') : s.reads ⊆ s'.reads := by
  induction fuel generalizing alternate s with
  | zero => cases h
  | succ fuel ih =>
    have hread : s.reads ⊆ s.read.reads := List.subset_append_left _ _
    rw [formatCharSwitch] at h
    cases hspec : specifier (call.format s.buf) with
    | percent | char | other =>
      rw [hspec] at h
      obtain rfl := Option.some.inj h
      exact hread
    | sharp =>
      rw [hspec] at h
      have hkept : s.read.nextChar.reads ⊆ s'.reads := ih h
      exact List.Subset.trans hread hkept
    | hex =>
      rw [hspec] at h
      cases alternate with
      | true => exact printHex8_reads h ▸ hread
      | false => exact printNumber_reads h ▸ hread
    | unsigned | signed =>
      rw [hspec] at h
      exact printNumber_reads h ▸ hread
    | string =>
      rw [hspec] at h
      exact printString_reads h ▸ hread

theorem printfLoop_reads {fuel : ℕ} (h : call.printfLoop fuel s = some r) :
    s.buf ∈ r.reads ∧ s.reads ⊆ r.reads := by
  induction fuel generalizing s with
  | zero => cases h
  | succ fuel ih =>
    have hread : s.read.reads ⊆ r.reads := by
      simp only [printfLoop] at h
      split_ifs at h with hnul hpercent
      · obtain rfl := Option.some.inj h
        exact List.Subset.refl _
      · obtain ⟨s₁, hswitch, hloop⟩ := Option.bind_eq_some_iff.mp h
        have hkept : s.read.nextChar.reads ⊆ s₁.reads := formatCharSwitch_reads hswitch
        exact List.Subset.trans hkept (ih hloop).2
      · exact (ih h).2
    exact ⟨hread (List.mem_append_right _ (List.mem_singleton_self _)),
      List.Subset.trans (List.subset_append_left _ _) hread⟩

theorem printf_renders_iff (h : call.Given text args) :
    (∃ result, Yields call.printf result ∧ Renders text args result) ↔
      ∀ piece ∈ pieces none text, piece.isUnfinished = false := by
  constructor
  · rintro ⟨result, hyields, hrenders⟩
    obtain ⟨s', hloop, hdid⟩ := h.runsTo
    obtain ⟨bound, hresult⟩ := (hloop result).mp hyields
    have hle := hrenders.reads _ (printfLoop_reads (hresult bound le_rfl)).1
    have hbuf : s'.buf = 0 + (text.length + (pieces none text).countP Piece.isUnfinished) :=
      hdid.buf
    have hcount : (pieces none text).countP Piece.isUnfinished = 0 := by omega
    intro piece hp
    simpa using List.countP_eq_zero.mp hcount piece hp
  · intro hfinished
    obtain ⟨result, hyields, hrenders, -⟩ := h.printf_yields hfinished
    exact ⟨result, hyields, hrenders⟩

def sampleCall : PrintfCall where
  format := cstr (ascii "%#d%%%s")
  stack := fun i ↦ if i = 0 then 0xFFFFFFFF else 0x1000
  memory := fun address ↦ cstr (if address = 0x1000 then ascii "files" else [])
  garbage := fun _ _ ↦ 0xAA

theorem printf_renders_iff_sample : ∃ result, Yields sampleCall.printf result ∧
    Renders (ascii "%#d%%%s") [.word 0xFFFFFFFF, .string (ascii "files")] result := by
  refine (printf_renders_iff ⟨⟨by decide, fun _ _ ↦ rfl⟩, by decide, fun i a hi ↦ ?_⟩).mpr
    (by decide)
  match i with
  | 0 =>
    obtain rfl := Option.some.inj hi
    rfl
  | 1 =>
    obtain rfl := Option.some.inj hi
    exact ⟨by decide, fun _ _ ↦ rfl⟩
  | i + 2 => cases hi

def percentCall : PrintfCall where
  format := cstr ('%'.toUInt8 :: 0 :: ascii "leak")
  stack := fun _ ↦ 0
  memory := fun _ _ ↦ 0
  garbage := fun _ _ ↦ 0

theorem percent_end_reads_on : percentCall.Given (ascii "%") [] ∧
    Yields percentCall.printf ⟨6, 0, ascii "leak", [0, 1, 2, 3, 4, 5, 6], []⟩ ∧
    ¬∃ result, Yields percentCall.printf result ∧ Renders (ascii "%") [] result := by
  have hyields : Yields percentCall.printf ⟨6, 0, ascii "leak", [0, 1, 2, 3, 4, 5, 6], []⟩ := by
    refine ⟨7, fun fuel hf ↦ ?_⟩
    obtain ⟨fuel, rfl⟩ := Nat.exists_eq_add_of_le' hf
    rfl
  refine ⟨⟨⟨by decide, ?_⟩, rfl, fun i a hi ↦ by cases hi⟩, hyields, ?_⟩
  · decide
  · rintro ⟨result, hresult, hrenders⟩
    obtain rfl := hresult.unique hyields
    exact absurd (hrenders.reads 2 (by decide)) (by decide)

end PrintfCall

end Run

section Numbers

variable {r : ℕ} {v : UInt32} {text out : List UInt8} {sharps : ℕ} {c : UInt8}

/-- What `itoa` is to make of a number: its numeral, ended by a NUL, in the place it was
given and nowhere else. -/
structure ItoaRenders (r : ℕ) (v : UInt32) : Prop where
  returns : ∀ b p, ∃ b', Yields (fun fuel ↦ itoa fuel v b p (Int32.ofNat r)) b' ∧
    Points (fun i ↦ b'.bytes (p + i)) (numeral r v.toNat) ∧
    ∀ i ∈ b'.stores, i ∈ b.stores ∨ p ≤ i ∧ i ≤ p + (numeral r v.toNat).length
  nonempty : numeral r v.toNat ≠ []
  short : (numeral r v.toNat).length ≤ 32
  digits : ∀ c ∈ numeral r v.toNat, c ∈ lookup.take r
  leading : (numeral r v.toNat).head? = some '0'.toUInt8 → v = 0
  value : numeralValue r (numeral r v.toNat) = v.toNat
  injective : ∀ w : UInt32, numeral r w.toNat = numeral r v.toNat → w = v

/-- Wherever the inner `switch` of `printf` meets a character, it prints a text for the
argument and writes inside its array alone. -/
def Prints (v : UInt32) (sharps : ℕ) (c : UInt8) (out : List UInt8) : Prop :=
  ∀ (call : PrintfCall) (s : PrintfState), call.format s.buf = c → call.stack s.esp = v → ∃ s',
    Yields (fun fuel ↦ call.formatCharSwitch fuel (0 < sharps) s) s' ∧ s.Did 0 1 out s'

def PrintsAlone (v : UInt32) (format out : List UInt8) : Prop :=
  ∀ call : PrintfCall, Points call.format format → call.stack 0 = v → ∃ result,
    Yields call.printf result ∧ result.sent = out ∧ ∀ w ∈ result.stores, w.2 < w.1

structure PrintfRenders (v : UInt32) : Prop where
  signed : ∀ sharps, Prints v sharps 'd'.toUInt8 (signedNumeral v.toInt32)
  unsigned : ∀ sharps, Prints v sharps 'u'.toUInt8 (numeral 10 v.toNat)
  hex : Prints v 0 'x'.toUInt8 (numeral 16 v.toNat)
  hex8 : ∀ sharps > 0, Prints v sharps 'x'.toUInt8 (paddedHex v)
  alone : PrintsAlone v (ascii "%d") (signedNumeral v.toInt32) ∧
    PrintsAlone v (ascii "%u") (numeral 10 v.toNat) ∧
    PrintsAlone v (ascii "%x") (numeral 16 v.toNat) ∧ PrintsAlone v (ascii "%#x") (paddedHex v)
  negative : v.toInt32.toInt < 0 → ∃ digits, signedNumeral v.toInt32 = '-'.toUInt8 :: digits ∧
    (numeralValue 10 digits : ℤ) = -v.toInt32.toInt
  nonnegative : 0 ≤ v.toInt32.toInt →
    (numeralValue 10 (signedNumeral v.toInt32) : ℤ) = v.toInt32.toInt
  eight : (paddedHex v).length = 8
  eight_digits : ∀ c ∈ paddedHex v, c ∈ lookup.take 16
  eight_value : numeralValue 16 (paddedHex v) = v.toNat

theorem itoa_renders (hr : 1 < r) (hr' : r ≤ 36) : ItoaRenders r v where
  returns b p := by
    obtain ⟨b', hyields, hwrote⟩ := itoa_yields (v := v) (b := b) (p := p) hr hr'
    refine ⟨b', hyields, hwrote.points (zero_notMem_numeral hr hr'), fun i hi ↦ ?_⟩
    refine (hwrote.stores i hi).imp_right fun h ↦ ?_
    rw [List.length_append, List.length_singleton] at h
    omega
  nonempty := numeral_ne_nil
  short := by
    refine length_numeral_le hr (by decide) (v.toNat_lt.trans_le ?_)
    exact Nat.pow_le_pow_left hr 32
  digits c := mem_take_of_mem_numeral hr hr'
  leading h := UInt32.toNat_inj.mp (eq_zero_of_head_numeral hr hr' h)
  value := numeralValue_numeral hr hr'
  injective w h := UInt32.toNat_inj.mp (numeral_injective hr hr' h)

theorem prints_of_asks (hspec : specifier c ≠ .sharp)
    (hasks : (Piece.conversion sharps c).asks = some .word) :
    Prints v sharps c ((Piece.conversion sharps c).render (some (.word v))) := by
  intro call s hc hv
  have hkind : (some (Arg.word v)).map Arg.kind = (Piece.conversion sharps c).asks := hasks.symm
  refine PrintfCall.formatCharSwitch_yields hc hspec hkind fun a ha ↦ ?_
  obtain rfl := Option.some.inj ha
  exact hv

theorem printsAlone_of_pieces (hpieces : pieces none text = [.conversion sharps c])
    (hasks : (Piece.conversion sharps c).asks = some .word) :
    PrintsAlone v text ((Piece.conversion sharps c).render (some (.word v))) := by
  intro call hformat hv
  have hgiven : call.Given text [.word v] := by
    refine ⟨hformat, ?_, fun i a hi ↦ ?_⟩
    · rw [hpieces, List.filterMap_cons_some hasks]
      rfl
    · cases i with
      | zero =>
        obtain rfl := Option.some.inj hi
        exact hv
      | succ i => cases hi
  obtain ⟨result, hyields, hrenders, hstores⟩ :=
    hgiven.printf_yields (by simp [hpieces, Piece.isUnfinished])
  refine ⟨result, hyields, ?_, hstores⟩
  rw [hrenders.sent, hpieces, render, hasks]
  exact List.append_nil _

theorem printf_renders : PrintfRenders v where
  signed _ := prints_of_asks (by decide) rfl
  unsigned _ := prints_of_asks (by decide) rfl
  hex := prints_of_asks (by decide) rfl
  hex8 sharps hpos := by
    have hprints := prints_of_asks (v := v) (c := 'x'.toUInt8) (by decide)
      (rfl : (Piece.conversion sharps 'x'.toUInt8).asks = some .word)
    have hpadded : (Piece.conversion sharps 'x'.toUInt8).render (some (.word v)) = paddedHex v :=
      if_neg hpos.ne'
    rwa [hpadded] at hprints
  alone := by
    have hsigned : pieces none (ascii "%d") = [.conversion 0 'd'.toUInt8] := by decide
    have hunsigned : pieces none (ascii "%u") = [.conversion 0 'u'.toUInt8] := by decide
    have hhex : pieces none (ascii "%x") = [.conversion 0 'x'.toUInt8] := by decide
    have hhex8 : pieces none (ascii "%#x") = [.conversion 1 'x'.toUInt8] := by decide
    exact ⟨printsAlone_of_pieces hsigned rfl, printsAlone_of_pieces hunsigned rfl,
      printsAlone_of_pieces hhex rfl, printsAlone_of_pieces hhex8 rfl⟩
  negative h := by
    refine ⟨numeral 10 v.toInt32.toInt.natAbs, if_pos (neg_iff.mpr h), ?_⟩
    rw [numeralValue_numeral (by decide) (by decide)]
    omega
  nonnegative h := by
    rw [signedNumeral, if_neg (neg_iff.not.mpr (not_lt.mpr h)),
      numeralValue_numeral (by decide) (by decide)]
    omega
  eight := length_paddedHex
  eight_digits _ := mem_take_of_mem_paddedHex
  eight_value := numeralValue_paddedHex

theorem number_rendering (v : UInt32) (hr : 2 ≤ r) (hr' : r ≤ 36) :
    ItoaRenders r v ∧ PrintfRenders v :=
  ⟨itoa_renders hr hr', printf_renders⟩

theorem number_rendering_sample : ItoaRenders 36 0x80000000 ∧ PrintfRenders 0x80000000 :=
  number_rendering 0x80000000 (by decide) (by decide)

end Numbers

end ApollOS
