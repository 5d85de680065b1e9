import ApollOS.Programs.GrepPieces

namespace ApollOS

open Function Fuel

/-- The system calls of a user program, as the functions of the library that wrap them. -/
structure LibraryCalls (σ : Type) where
  ece391Open : (ℕ → UInt8) → σ → σ × ℤ
  ece391Read : ℤ → ℕ → σ → Option (σ × ℤ × List UInt8)
  ece391Write : ℤ → List UInt8 → σ → σ × ℤ
  ece391Close : ℤ → σ → σ × ℤ
  ece391Getargs : ℕ → σ → σ × ℤ × List UInt8

def LibraryCalls.toUserCalls {σ : Type} (calls : LibraryCalls σ) : UserCalls σ where
  ece391Open := calls.ece391Open
  ece391Read := calls.ece391Read
  ece391Write fd bytes st := (calls.ece391Write fd bytes st).1
  ece391Close := calls.ece391Close

/-- What an array `buf` of a program holds, and what lies behind it. -/
abbrev CharArray := ℕ → UInt8

namespace CharArray

variable (buf : CharArray) (size : ℕ)

def fill (bytes : List UInt8) : Option CharArray :=
  if bytes.length ≤ size then some fun i ↦ bytes.getD i (buf i) else none

def stores (i : ℕ) (bytes : List UInt8) : Option CharArray :=
  if i + bytes.length ≤ size then
    some fun j ↦ if i ≤ j then bytes.getD (j - i) (buf j) else buf j
  else none

def bytes (n : ℕ) : Option (List UInt8) :=
  if n ≤ size then some ((List.range n).map buf) else none

end CharArray

def index (cnt : ℤ) : Option ℕ := if 0 ≤ cnt then some cnt.toNat else none

namespace LibraryCalls

variable {σ : Type} (calls : LibraryCalls σ)

def ece391Fdputs (fuel : ℕ) (fd : ℤ) (s : Ptr) (st : σ) : Option σ :=
  calls.toUserCalls.ece391Fdputs fuel fd s st

def complain (fuel : ℕ) (text : List UInt8) (status : ℤ) (st : σ) : Option (σ × ℤ) := do
  let st ← calls.ece391Fdputs fuel 1 (UserCalls.message text) st
  some (st, status)

/-- The loop of `cat` and of `ls`: what is read, with an ending stored behind it, is written to
the terminal. -/
def copyLoop (size count : ℕ) (ending failed : List UInt8) (fd : ℤ) :
    ℕ → CharArray → σ → Option (σ × ℤ)
  | 0, _, _ => none
  | fuel + 1, buf, st => do
    let (st, cnt, bytes) ← calls.ece391Read fd count st
    let buf ← buf.fill size bytes
    if cnt = 0 then some (st, 0)
    else if cnt = -1 then calls.complain fuel failed 3 st
    else
      let n ← index cnt
      let buf ← buf.stores size n ending
      let text ← buf.bytes size (n + ending.length)
      let (st, r) := calls.ece391Write 1 text st
      if r = -1 then some (st, 3) else copyLoop size count ending failed fd fuel buf st

end LibraryCalls

section Feeding

variable {σ : Type} {calls : LibraryCalls σ} {fd : ℤ} {count size fuel : ℕ}
  {I : List (List UInt8) → List (List UInt8) → σ → Prop} {rest out : List (List UInt8)} {st : σ}
  {buf : CharArray} {ending failed piece bytes text : List UInt8}

/-- What a program can rely on that copies something to the terminal: `I rest out st` says that
it has written `out` and that its reads are still going to deliver the pieces `rest`. -/
structure Feeds (calls : LibraryCalls σ) (fd : ℤ) (count : ℕ)
    (I : List (List UInt8) → List (List UInt8) → σ → Prop) : Prop where
  piece : ∀ {piece rest out st}, I (piece :: rest) out st → ∃ st' bytes,
    calls.ece391Read fd count st = some (st', (piece.length : ℤ), bytes) ∧
    bytes.length ≤ count ∧ piece <+: bytes ∧ piece ≠ [] ∧ 0 ∉ piece ∧ I rest out st'
  last : ∀ {out st}, I [] out st → ∃ st',
    calls.ece391Read fd count st = some (st', 0, []) ∧ I [] out st'
  write : ∀ {rest out st bytes}, 0 ∉ bytes → I rest out st → ∃ st',
    calls.ece391Write 1 bytes st = (st', (bytes.length : ℤ)) ∧ I rest (out ++ [bytes]) st'

theorem CharArray.bytes_stores (hsize : piece.length + ending.length ≤ size)
    (hbytes : bytes.length ≤ size) (hbegins : piece <+: bytes) : ∃ buf' buf'' : CharArray,
      buf.fill size bytes = some buf' ∧ buf'.stores size piece.length ending = some buf'' ∧
      buf''.bytes size (piece.length + ending.length) = some (piece ++ ending) := by
  refine ⟨_, _, if_pos hbytes, if_pos hsize, ?_⟩
  rw [CharArray.bytes, if_pos hsize]
  refine congrArg some (List.ext_getElem (by simp) fun i hi hi' ↦ ?_)
  obtain ⟨tail, rfl⟩ := hbegins
  rw [List.getElem_map, List.getElem_range]
  rcases Nat.lt_or_ge i piece.length with hlt | hge
  · rw [if_neg (Nat.not_le.mpr hlt), List.getElem_append_left hlt]
    dsimp only
    rw [List.getD_append _ _ _ _ hlt, List.getD_eq_getElem _ _ hlt]
  · have hin : i - piece.length < ending.length := by
      rw [List.length_append] at hi'
      omega
    rw [if_pos hge, List.getElem_append_right hge, List.getD_eq_getElem _ _ hin]

theorem Feeds.copyLoop (hf : Feeds calls fd count I) (size : ℕ) (ending failed : List UInt8)
    (buf : CharArray) (hsize : count + ending.length ≤ size)
    (hending : 0 ∉ ending) (h : I rest out st) : ∃ st',
      Yields (fun fuel ↦ calls.copyLoop size count ending failed fd fuel buf st) (st', 0) ∧
      I [] (out ++ rest.map (· ++ ending)) st' := by
  induction rest generalizing out st buf with
  | nil =>
    obtain ⟨st', hread, hI⟩ := hf.last h
    refine ⟨st', .of_succ fun fuel ↦ ?_, ?_⟩
    · rw [LibraryCalls.copyLoop, hread]
      rfl
    · rwa [List.map_nil, List.append_nil]
  | cons piece rest ih =>
    obtain ⟨st₁, bytes, hread, hlen, hbegins, hne, hnul, h₁⟩ := hf.piece h
    have hpos := List.length_pos_iff.mpr hne
    have hle := hbegins.length_le
    have hroom : piece.length + ending.length ≤ size := by omega
    obtain ⟨buf₁, buf₂, hfill, hstores, hbytes⟩ : ∃ buf₁ buf₂ : CharArray,
        buf.fill size bytes = some buf₁ ∧ buf₁.stores size piece.length ending = some buf₂ ∧
        buf₂.bytes size (piece.length + ending.length) = some (piece ++ ending) :=
      CharArray.bytes_stores hroom (by omega) hbegins
    have hclean : 0 ∉ piece ++ ending := by
      rw [List.mem_append]
      exact not_or.mpr ⟨hnul, hending⟩
    obtain ⟨st₂, hwrite, h₂⟩ := hf.write hclean h₁
    obtain ⟨st', hyields, hI⟩ := ih buf₂ h₂
    have hzero : ¬ (piece.length : ℤ) = 0 := by omega
    have hfail : ¬ (piece.length : ℤ) = -1 := by omega
    have hwrote : ¬ ((piece ++ ending).length : ℤ) = -1 := by omega
    have hindex : index piece.length = some piece.length := if_pos (Int.natCast_nonneg _)
    refine ⟨st', (yields_succ_iff fun fuel ↦ ?_).mpr hyields, ?_⟩
    · rw [LibraryCalls.copyLoop, hread]
      simp only [Option.bind_eq_bind, Option.bind_some, hfill, if_neg hzero, if_neg hfail, hindex,
        hstores, hbytes, hwrite, if_neg hwrote]
    · rwa [List.map_cons, List.append_cons]

end Feeding

end ApollOS
