import ApollOS.Foundation.CountedLoop
import ApollOS.Files.Names
import Mathlib.Data.List.GetD

namespace ApollOS

open Function CountedLoop FixedField

/-- What a copying loop of `execute` does: the places of the buffer it stores to, with
the bytes, and the index it stops at. -/
structure Copied where
  stores : List (ℕ × UInt8)
  last : UInt8

/-- Such a loop, whose index is a `uint8_t`, and the NUL stored after it. -/
def copyInto (ends : UInt8 → Bool) (src : ℕ → UInt8) (fuel : ℕ) : Option Copied :=
  (loop (fun i : UInt8 ↦ ends (src i.toNat)) (· + 1) fuel 0).map fun (visited, last) ↦
    ⟨visited.map (fun i ↦ (i.toNat, src i.toNat)) ++ [(last.toNat, 0)], last⟩

def copyCommand (command : ℕ → UInt8) (fuel : ℕ) : Option Copied := copyInto endsWord command fuel

def copyArgs (command : ℕ → UInt8) (argStart fuel : ℕ) : Option Copied :=
  copyInto endsArgs (fun i ↦ command (i + argStart)) fuel

/-- The loop comes to an end, and has stored within a buffer of `COMMAND_SIZE` bytes
only. -/
def Fills (copy : ℕ → Option Copied) : Prop :=
  ∃ fuel c, copy fuel = some c ∧ ∀ s ∈ c.stores, s.1 < commandSize

/-- The arguments are only copied when the word is not "exit", names a program, and
there is room for a process. -/
def ReachesArgs (b : Build) (k : Kernel) (word : List UInt8) : Prop :=
  strncmp (cstr word) (cstr (ascii "exit")) 4 ≠ 0 ∧
  (∃ dentry, readDentryByName b.image (cstr word) = some dentry ∧
    readInto b.image dentry.inodeNum 0 (List.replicate magicSize 0) = elfMagic) ∧
  k.canExecute = true

structure CopiesSafely (command : ℕ → UInt8) (reached : Prop) : Prop where
  word : Fills (copyCommand command)
  args : reached → ∀ fuel c, copyCommand command fuel = some c → command c.last.toNat = 32 →
    Fills (copyArgs command (c.last.toNat + 1))

section Loops

variable {ends : UInt8 → Bool} {src : ℕ → UInt8} {text word rest : List UInt8} {n fuel r : ℕ}
  {c : Copied}

theorem toNat_iterate : ((· + 1)^[n] (0 : UInt8)).toNat = n % 256 := by
  induction n with
  | zero => rfl
  | succ n ih =>
    rw [iterate_succ_apply', UInt8.toNat_add, ih]
    exact Nat.mod_add_mod n 256 1

/-- The loop stops where the source does, unless the index wraps before. -/
theorem rounds_iff (hn : IsLeast {i | ends (src i) = true} n) :
    Rounds (fun i : UInt8 ↦ ends (src i.toNat)) (· + 1) 0 r ↔ r = n ∧ n < 256 := by
  simp only [Rounds, toNat_iterate]
  constructor
  · rintro ⟨hstop, hleast⟩
    have hle : n ≤ r % 256 := hn.2 hstop
    have hlt : r % 256 < 256 := Nat.mod_lt r (by decide)
    have hr : r ≤ n := hleast (by
      have hmod : n % 256 = n := Nat.mod_eq_of_lt (by omega)
      simpa only [Set.mem_ofPred_eq, hmod] using hn.1)
    omega
  · rintro ⟨rfl, hlt⟩
    refine ⟨?_, fun m hm ↦ (hn.2 hm).trans (Nat.mod_le m 256)⟩
    simpa only [Set.mem_ofPred_eq, Nat.mod_eq_of_lt hlt] using hn.1

theorem copyInto_eq_some_iff (hn : IsLeast {i | ends (src i) = true} n) :
    copyInto ends src fuel = some c ↔ n < 256 ∧ n < fuel ∧
      c = ⟨(List.range n).map (fun i ↦ (i, src i)) ++ [(n, 0)], (· + 1)^[n] 0⟩ := by
  have hcopied (hlt : n < 256) : (List.map (fun i : UInt8 ↦ (i.toNat, src i.toNat))
      ((List.range n).map fun m ↦ (· + 1)^[m] (0 : UInt8))) =
      (List.range n).map fun i ↦ (i, src i) := by
    rw [List.map_map]
    refine List.map_congr_left fun i hi ↦ ?_
    have hmod : i % 256 = i := Nat.mod_eq_of_lt ((List.mem_range.mp hi).trans hlt)
    simp only [comp_apply, toNat_iterate, hmod]
  simp only [copyInto, Option.map_eq_some_iff, loop_eq_some_iff, rounds_iff hn]
  constructor
  · rintro ⟨-, ⟨m, hfuel, ⟨rfl, hlt⟩, rfl⟩, rfl⟩
    refine ⟨hlt, hfuel, ?_⟩
    simp only [hcopied hlt, toNat_iterate, Nat.mod_eq_of_lt hlt]
  · rintro ⟨hlt, hfuel, rfl⟩
    refine ⟨_, ⟨n, hfuel, ⟨rfl, hlt⟩, rfl⟩, ?_⟩
    simp only [hcopied hlt, toNat_iterate, Nat.mod_eq_of_lt hlt]

theorem fills_iff (hn : IsLeast {i | ends (src i) = true} n) :
    Fills (copyInto ends src) ↔ n < commandSize := by
  constructor
  · rintro ⟨fuel, c, hcopy, hwithin⟩
    obtain ⟨-, -, rfl⟩ := (copyInto_eq_some_iff hn).mp hcopy
    exact hwithin (n, 0) (List.mem_append_right _ (List.mem_singleton_self _))
  · intro hlt
    refine ⟨n + 1, _, (copyInto_eq_some_iff hn).mpr
      ⟨hlt.trans (by decide), Nat.lt_succ_self n, rfl⟩, fun s hs ↦ ?_⟩
    rcases List.mem_append.mp hs with hs | hs
    · obtain ⟨i, hi, rfl⟩ := List.mem_map.mp hs
      exact (List.mem_range.mp hi).trans hlt
    · obtain rfl := List.mem_singleton.mp hs
      exact hlt

end Loops

section Strings

variable {b : Build} {k : Kernel} {ends : UInt8 → Bool} {src : ℕ → UInt8} {text rest : List UInt8}
  {fuel : ℕ} {c : Copied}

theorem Points.isLeast (h : Points src text) (hends : ends 0 = true) :
    IsLeast {i | ends (src i) = true} (text.takeWhile (!ends ·)).length := by
  have hle : (text.takeWhile (!ends ·)).length ≤ text.length := (List.takeWhile_prefix _).length_le
  obtain ⟨hstop, hleast⟩ := isLeast_length_takeWhile (l := text) (p := (!ends ·)) (z := 0)
    (by simp [hends])
  constructor
  · have hat := h.agrees _ hle
    simpa only [Set.mem_ofPred_eq, hat, cstr, Bool.not_eq_false'] using hstop
  · intro i hi
    rcases Nat.lt_or_ge text.length i with hlt | hge
    · exact hle.trans hlt.le
    · refine hleast ?_
      simpa only [Set.mem_ofPred_eq, h.agrees i hge, cstr, Bool.not_eq_false'] using hi

theorem Points.word (h : Points src text) :
    IsLeast {i | endsWord (src i) = true} (commandWord text).length := h.isLeast rfl

theorem Points.args (h : Points src text) (hrest : text.dropWhile (!endsWord ·) = 32 :: rest) :
    Points (fun i ↦ src (i + ((commandWord text).length + 1))) rest := by
  have hsplit : text = commandWord text ++ 32 :: rest := by
    rw [← hrest]
    exact (List.takeWhile_append_dropWhile).symm
  have hlen : text.length = (commandWord text).length + (rest.length + 1) := by
    have hlen := congrArg List.length hsplit
    rwa [List.length_append, List.length_cons] at hlen
  refine ⟨fun hzero ↦ h.nonzero ?_, fun i hi ↦ ?_⟩
  · rw [hsplit]
    exact List.mem_append_right _ (List.mem_cons_of_mem 32 hzero)
  · have hat : cstr text ((commandWord text).length + (i + 1)) = cstr rest i := by
      have hskip := List.getD_append_right (commandWord text) (32 :: rest) (0 : UInt8)
        ((commandWord text).length + (i + 1)) (Nat.le_add_right _ _)
      rw [← hsplit, Nat.add_sub_cancel_left, List.getD_cons_succ] at hskip
      exact hskip
    have hplace : i + ((commandWord text).length + 1) = (commandWord text).length + (i + 1) := by
      omega
    rw [hplace, h.agrees _ (by omega), hat]

theorem Points.space_iff (h : Points src text) : src (commandWord text).length = 32 ↔
    ∃ rest, text.dropWhile (!endsWord ·) = 32 :: rest := by
  have hsplit : commandWord text ++ text.dropWhile (!endsWord ·) = text :=
    List.takeWhile_append_dropWhile
  have hlen := congrArg List.length hsplit
  rw [List.length_append] at hlen
  have hat : cstr text (commandWord text).length = cstr (text.dropWhile (!endsWord ·)) 0 := by
    have hskip := List.getD_append_right (commandWord text) (text.dropWhile (!endsWord ·))
      (0 : UInt8) (commandWord text).length le_rfl
    rwa [hsplit, Nat.sub_self] at hskip
  rw [h.agrees _ (by omega), hat]
  cases text.dropWhile (!endsWord ·) with
  | nil => simp [cstr]
  | cons c rest => simp [cstr]

theorem Points.copied (h : Points src text) (hends : ends 0 = true)
    (hlt : (text.takeWhile (!ends ·)).length < commandSize) :
    ∃ c, copyInto ends src commandSize = some c ∧
      c.stores.map Prod.snd = text.takeWhile (!ends ·) ++ [0] := by
  have hprefix : text.takeWhile (!ends ·) <+: text := List.takeWhile_prefix _
  refine ⟨_, (copyInto_eq_some_iff (h.isLeast hends)).mpr
    ⟨hlt.trans (by decide), hlt, rfl⟩, ?_⟩
  have hbytes : (List.range (text.takeWhile (!ends ·)).length).map src =
      text.takeWhile (!ends ·) := by
    rw [List.prefix_iff_eq_take.mp hprefix, List.length_take, Nat.min_eq_left hprefix.length_le,
      ← map_getD_range hprefix.length_le]
    refine List.map_congr_left fun i hi ↦ h.agrees i ?_
    exact (List.mem_range.mp hi).le.trans hprefix.length_le
  simp only [List.map_append, List.map_map, List.map_singleton]
  exact congrArg (· ++ [0]) hbytes

/-- Of a command that fits, the buffers get the word and the arguments that `execute`
goes on with. -/
theorem Command.copied (command : Command) (h : Points src command.text) :
    (∃ c, copyCommand src commandSize = some c ∧
      c.stores.map Prod.snd = commandWord command.text ++ [0]) ∧
    (src (commandWord command.text).length = 32 →
      ∃ c, copyArgs src ((commandWord command.text).length + 1) commandSize = some c ∧
        c.stores.map Prod.snd = commandArgs command.text ++ [0]) := by
  refine ⟨h.copied rfl command.word_lt, fun hspace ↦ ?_⟩
  obtain ⟨rest, hrest⟩ := h.space_iff.mp hspace
  have hargs : commandArgs command.text = rest.takeWhile (!endsArgs ·) := by
    rw [commandArgs, hrest]
    exact if_pos rfl
  have hlt := command.args_lt
  rw [hargs] at hlt ⊢
  exact (h.args hrest).copied rfl hlt

/-- Both loops store within their buffers exactly if the word is shorter than the
buffer and, where they are copied, so are the arguments. -/
theorem copying_iff (h : Points src text) (b : Build) (k : Kernel) :
    CopiesSafely src (ReachesArgs b k (commandWord text)) ↔
      (commandWord text).length < commandSize ∧
      (ReachesArgs b k (commandWord text) → (commandArgs text).length < commandSize) := by
  have hword := fills_iff h.word
  have hlast (fuel : ℕ) (c : Copied) (hcopy : copyCommand src fuel = some c) :
      c.last.toNat = (commandWord text).length := by
    obtain ⟨hlt, -, rfl⟩ := (copyInto_eq_some_iff h.word).mp hcopy
    rw [toNat_iterate, Nat.mod_eq_of_lt hlt]
  have hargs (rest : List UInt8) (hrest : text.dropWhile (!endsWord ·) = 32 :: rest) :
      Fills (copyArgs src ((commandWord text).length + 1)) ↔
        (commandArgs text).length < commandSize := by
    rw [commandArgs, hrest]
    exact fills_iff ((h.args hrest).isLeast rfl)
  constructor
  · intro hsafe
    refine ⟨hword.mp hsafe.word, fun hreached ↦ ?_⟩
    by_cases hspace : src (commandWord text).length = 32
    · obtain ⟨rest, hrest⟩ := h.space_iff.mp hspace
      obtain ⟨fuel, c, hcopy, -⟩ := hsafe.word
      have hc := hlast fuel c hcopy
      have hfills := hsafe.args hreached fuel c hcopy (by rwa [hc])
      rw [hc] at hfills
      exact (hargs rest hrest).mp hfills
    · have hnil : commandArgs text = [] := by
        have hno := mt h.space_iff.mpr hspace
        rw [commandArgs]
        split
        · rfl
        · rename_i c rest hrest
          exact if_neg fun hc ↦ hno ⟨rest, by rw [hrest, hc]⟩
      rw [hnil]
      decide
  · rintro ⟨hlt, hreach⟩
    refine ⟨hword.mpr hlt, fun hreached fuel c hcopy hspace ↦ ?_⟩
    rw [hlast fuel c hcopy] at hspace ⊢
    obtain ⟨rest, hrest⟩ := h.space_iff.mp hspace
    exact (hargs rest hrest).mpr (hreach hreached)

end Strings

section Sample

theorem commandWord_replicate (n : ℕ) :
    commandWord (List.replicate n 97) = List.replicate n 97 := by
  rw [commandWord, List.takeWhile_eq_self_iff]
  intro c hc
  obtain rfl := List.eq_of_mem_replicate hc
  decide

theorem points_replicate (n : ℕ) :
    Points (cstr (List.replicate n 97)) (List.replicate n 97) :=
  ⟨fun h ↦ absurd (List.eq_of_mem_replicate h) (by decide), fun _ _ ↦ rfl⟩

/-- The NUL after a word of 128 letters falls behind the buffer, and a word of 256 is
copied for ever. -/
theorem long_word_overruns : ∃ k, Boots sampleBuild sampleMachine k ∧
    Points (cstr (List.replicate 128 97)) (List.replicate 128 97) ∧
    ¬ CopiesSafely (cstr (List.replicate 128 97))
      (ReachesArgs sampleBuild k (commandWord (List.replicate 128 97))) ∧
    Points (cstr (List.replicate 256 97)) (List.replicate 256 97) ∧
    ∀ fuel, copyCommand (cstr (List.replicate 256 97)) fuel = none := by
  obtain ⟨k, hb⟩ := sample_boots
  refine ⟨k, hb, points_replicate 128, fun hsafe ↦ ?_, points_replicate 256, fun fuel ↦ ?_⟩
  · have hlt := (fills_iff (points_replicate 128).word).mp hsafe.word
    rw [commandWord_replicate, List.length_replicate] at hlt
    exact absurd hlt (by decide)
  · by_contra hsome
    obtain ⟨c, hcopy⟩ := Option.ne_none_iff_exists'.mp hsome
    have hlt := ((copyInto_eq_some_iff (points_replicate 256).word).mp hcopy).1
    rw [commandWord_replicate, List.length_replicate] at hlt
    exact absurd hlt (by decide)

theorem copying_iff_sample : ∃ k, Boots sampleBuild sampleMachine k ∧
    CopiesSafely (cstr (ascii "shell a")) (ReachesArgs sampleBuild k (ascii "shell")) := by
  obtain ⟨k, hb⟩ := sample_boots
  have hpoints : Points (cstr (ascii "shell a")) (ascii "shell a") := ⟨by decide, fun _ _ ↦ rfl⟩
  have hsafe := (copying_iff hpoints sampleBuild k).mpr ⟨by decide, fun _ ↦ by decide⟩
  exact ⟨k, hb, hsafe⟩

end Sample

end ApollOS
