import ApollOS.Console.Switching

namespace ApollOS

open Function Runs

variable {b : Build} {m : Machine} {k k' k₀ : Kernel} {e : Event} {es : List Event}

/-- The position has not run off either end of the key buffer, and no index beyond
the buffer has been touched. -/
structure InBuffer (k : Kernel) : Prop where
  pos : k.keyboard.keyBufferPos.toNat ≤ keyBufferSize
  touched : ∀ i ∈ k.keyboard.touched, i < keyBufferSize

/-- The positions that are put away with the terminals are as good. -/
def SavedInBuffer (k : Kernel) : Prop :=
  ∀ t, (k.terminal t).keyBufferPos.toNat ≤ keyBufferSize

/-- The events that stay in the buffer: an arrow key finds the position not at the
end it moves to unless it does not move at all, and a read comes to the end of the
line, or of what it asked for, within the buffer. -/
def StaysInBuffer (k : Kernel) : Event → Prop
  | .key .left => k.console.screenX = 7 ∨ 0 < k.keyboard.keyBufferPos.toNat
  | .key .right => k.keyboard.rightBound ≤ k.console.screenX ∨
      k.keyboard.keyBufferPos.toNat < keyBufferSize
  | .read nbytes => nbytes < keyBufferSize ∨ ∃ i < keyBufferSize, k.keys.charAt i = 0
  | _ => True

section ReadLoop

variable {buf : KeyBuffer} {n i : ℕ}

theorem readLoop_length_le (buf : KeyBuffer) (n i : ℕ) :
    (Kernel.readLoop buf n i).length ≤ n := by
  induction n generalizing i with
  | zero => exact Nat.zero_le _
  | succ n ih =>
    rw [Kernel.readLoop]
    split_ifs
    · exact Nat.zero_le _
    · exact Nat.succ_le_succ (ih _)

theorem readLoop_length_lt {j : ℕ} (hi : i ≤ j) (hj : buf.charAt j = 0) :
    i + (Kernel.readLoop buf n i).length ≤ j := by
  induction n generalizing i with
  | zero => simpa [Kernel.readLoop] using hi
  | succ n ih =>
    rw [Kernel.readLoop]
    split_ifs with hzero
    · simpa using hi
    · have hne : i ≠ j := by
        rintro rfl
        exact hzero hj
      have hrec := ih (i := i + 1) (by omega)
      rw [List.length_cons]
      omega

theorem readLoop_stops (buf : KeyBuffer) (n i : ℕ) :
    (Kernel.readLoop buf n i).length = n ∨
    buf.charAt (i + (Kernel.readLoop buf n i).length) = 0 := by
  induction n generalizing i with
  | zero => exact .inl rfl
  | succ n ih =>
    rw [Kernel.readLoop]
    split_ifs with hzero
    · exact .inr hzero
    · rw [List.length_cons, ← Nat.add_assoc, Nat.add_right_comm]
      exact (ih _).imp_left (congrArg (· + 1))

theorem readLoop_inBuffer_iff {nbytes : ℤ} :
    (Kernel.readLoop buf nbytes.toNat 0).length < keyBufferSize ↔
      nbytes < keyBufferSize ∨ ∃ i < keyBufferSize, buf.charAt i = 0 := by
  have hsize : keyBufferSize = 128 := rfl
  constructor
  · intro h
    rcases readLoop_stops buf nbytes.toNat 0 with hall | hzero
    · left
      omega
    · rw [Nat.zero_add] at hzero
      exact .inr ⟨_, h, hzero⟩
  · rintro (hshort | ⟨i, hi, hzero⟩)
    · have hle := readLoop_length_le buf nbytes.toNat 0
      omega
    · have hle := readLoop_length_lt (n := nbytes.toNat) (Nat.zero_le i) hzero
      omega

end ReadLoop

theorem arrow_left_iff {pos : UInt32} (h : pos.toNat ≤ keyBufferSize) :
    (pos - 1).toNat ≤ keyBufferSize ↔ 0 < pos.toNat := by
  have hsize : keyBufferSize = 128 := rfl
  constructor
  · intro hle
    by_contra hzero
    have hpos : pos = 0 := UInt32.toNat_inj.mp (Nat.eq_zero_of_not_pos hzero)
    rw [hpos] at hle
    exact absurd hle (by decide)
  · intro hpos
    rw [Kernel.pos_pred hpos]
    omega

theorem arrow_right_iff {pos : UInt32} (h : pos.toNat ≤ keyBufferSize) :
    (pos + 1).toNat ≤ keyBufferSize ↔ pos.toNat < keyBufferSize := by
  have hsize : keyBufferSize = 128 := rfl
  have hsucc : (pos + 1).toNat = pos.toNat + 1 := by
    rw [UInt32.toNat_add]
    refine Nat.mod_eq_of_lt ?_
    rw [show (1 : UInt32).toNat = 1 from rfl]
    omega
  rw [hsucc]
  rfl

namespace InBuffer

theorem pressKey_iff (h : InBuffer k) (key : Key) :
    InBuffer (k.pressKey key) ↔ StaysInBuffer k (.key key) := by
  cases key with
  | char c =>
    refine iff_of_true ?_ trivial
    rw [Kernel.pressKey, Kernel.enterChar]
    split_ifs with hlt hzero
    · exact h
    · have hpos := Kernel.pos_lt_iff.mp hlt
      refine ⟨?_, fun i hi ↦ ?_⟩
      · exact (Kernel.pos_succ hpos).trans_le hpos
      · rcases List.mem_cons.mp hi with rfl | hi
        · exact hpos
        · exact h.touched i hi
    · exact h
  | backspace =>
    refine iff_of_true ?_ trivial
    rw [Kernel.pressKey, Kernel.handleBackpace]
    split_ifs with hpos
    · have hpred := Kernel.pos_pred (Kernel.pos_pos_iff.mp hpos)
      have hlt : (k.keyboard.keyBufferPos - 1).toNat < keyBufferSize := by
        have hle := h.pos
        have hne := Kernel.pos_pos_iff.mp hpos
        omega
      refine ⟨hlt.le, fun i hi ↦ ?_⟩
      rcases List.mem_cons.mp hi with rfl | hi
      · exact hlt
      · exact h.touched i hi
    · exact h
  | enter => exact iff_of_true ⟨h.pos, h.touched⟩ trivial
  | ctrlL => exact iff_of_true ⟨Nat.zero_le _, h.touched⟩ trivial
  | left =>
    rw [Kernel.pressKey, Kernel.moveCursorLeft]
    by_cases hx : k.console.screenX = 7
    · rw [if_neg (not_not.mpr hx)]
      exact iff_of_true h (.inl hx)
    · rw [if_pos hx]
      refine Iff.trans ⟨fun h' ↦ ?_, fun hpos ↦ ⟨?_, h.touched⟩⟩ (or_iff_right hx).symm
      · exact (arrow_left_iff h.pos).mp h'.pos
      · exact (arrow_left_iff h.pos).mpr hpos
  | right =>
    rw [Kernel.pressKey, Kernel.moveCursorRight]
    by_cases hx : k.console.screenX < k.keyboard.rightBound
    · rw [if_pos hx]
      refine Iff.trans ⟨fun h' ↦ ?_, fun hpos ↦ ⟨?_, h.touched⟩⟩ (or_iff_right hx.not_ge).symm
      · exact (arrow_right_iff h.pos).mp h'.pos
      · exact (arrow_right_iff h.pos).mpr hpos
    · rw [if_neg hx]
      exact iff_of_true h (.inl (not_lt.mp hx))

theorem read_iff (h : InBuffer k) {nbytes : ℤ} (hk : k.event b (.read nbytes) = some k') :
    InBuffer k' ↔ StaysInBuffer k (.read nbytes) := by
  obtain ⟨⟨k₁, bytes⟩, hread, rfl⟩ := Option.map_eq_some_iff.mp hk
  unfold Kernel.terminalRead at hread
  split_ifs at hread
  obtain ⟨rfl, -⟩ := Prod.mk.inj (Option.some.inj hread)
  rw [StaysInBuffer, ← readLoop_inBuffer_iff]
  constructor
  · intro h'
    refine h'.touched _ (List.mem_append_right _ (List.mem_append_left _ ?_))
    exact List.mem_range.mpr (Nat.lt_succ_self _)
  · intro hlen
    refine ⟨Nat.zero_le _, fun i hi ↦ ?_⟩
    rcases List.mem_append.mp hi with hi | hi
    · exact List.mem_range.mp hi
    · rcases List.mem_append.mp hi with hi | hi
      · have hle := List.mem_range.mp hi
        omega
      · exact h.touched i hi

theorem switch (h : InBuffer k) (hs : SavedInBuffer k) {term : Fin maxTerminals}
    (hk : k.event b (.switch term) = some k') : InBuffer k' := by
  rcases (switched_of_event hk).lines with hsame | hex
  · exact ⟨by rw [hsame.keyboard]; exact h.pos, by rw [hsame.keyboard]; exact h.touched⟩
  · exact ⟨by rw [hex.keyboard]; exact hs term, by rw [hex.keyboard]; exact h.touched⟩

theorem event_iff (h : InBuffer k) (hs : SavedInBuffer k) (hk : k.event b e = some k') :
    InBuffer k' ↔ StaysInBuffer k e := by
  cases e with
  | key key =>
    obtain rfl := Option.some.inj hk
    exact h.pressKey_iff key
  | output c =>
    obtain rfl := Option.some.inj hk
    exact iff_of_true ⟨h.pos, h.touched⟩ trivial
  | read nbytes => exact h.read_iff hk
  | switch term => exact iff_of_true (h.switch hs hk) trivial

end InBuffer

theorem SavedInBuffer.event (hs : SavedInBuffer k) (h : InBuffer k) (hk : k.event b e = some k') :
    SavedInBuffer k' := by
  intro t
  rcases place_of_event hk t with hplace | hplace
  · have hpos : (k'.terminal t).keyBufferPos = (k.terminal t).keyBufferPos :=
      congrArg Prod.fst hplace
    rw [hpos]
    exact hs t
  · have hpos : (k'.terminal t).keyBufferPos = k.keyboard.keyBufferPos := congrArg Prod.fst hplace
    rw [hpos]
    exact h.pos

theorem boots_inBuffer (hb : Boots b m k) : InBuffer k ∧ SavedInBuffer k := by
  obtain ⟨hkeyboard, -, hsaved⟩ := boots_lines hb
  refine ⟨⟨?_, ?_⟩, fun t ↦ ?_⟩
  · rw [hkeyboard]
    exact Nat.zero_le _
  · rw [hkeyboard]
    intro i hi
    cases hi
  · have hpos : (k.terminal t).keyBufferPos = 0 := congrArg Saved.pos (hsaved t)
    rw [hpos]
    exact Nat.zero_le _

/-- In a run the position keeps to the buffer, and every index that is touched lies
in it, exactly as long as every event is one of those that do. -/
theorem inBuffer_iff (hb : Boots b m k₀) (hr : run (Kernel.event b) k₀ es = some k) :
    (∀ u, Passes (Kernel.event b) k₀ es u → InBuffer u) ↔
      ∀ u e, Visits (Kernel.event b) k₀ es u e → StaysInBuffer u e := by
  obtain ⟨h, hs⟩ := boots_inBuffer hb
  exact forall_passes_iff (J := SavedInBuffer) (fun k e k' hs h hk ↦ hs.event h hk)
    (fun k e k' hs h hk ↦ h.event_iff hs hk) h hs hr

section Sample

def typedAndRead : List Event := [.key (.char 97), .key .left, .key .enter, .read 10]

def arrowAtLineStart : List Event := [.output 10, .key .left]

theorem arrowAtLineStart_run (k : Kernel) :
    ∃ k', run (Kernel.event b) k arrowAtLineStart = some k' ∧
      k'.keyboard.keyBufferPos = k.keyboard.keyBufferPos - 1 := by
  have hx : (k.console.putc 10).screenX = 0 := by
    rw [Console.putc_screenX, if_pos (.inl rfl)]
  refine ⟨_, run_cons_eq_some.mpr ⟨_, rfl, run_cons_eq_some.mpr ⟨_, rfl, rfl⟩⟩, ?_⟩
  simp [Kernel.pressKey, Kernel.moveCursorLeft, hx]

/-- A character is typed, the cursor goes back over it, and the line is completed and read. -/
theorem inBuffer_iff_sample : ∃ k₀ k, Boots sampleBuild sampleMachine k₀ ∧
    run (Kernel.event sampleBuild) k₀ typedAndRead = some k ∧
    ∀ u, Passes (Kernel.event sampleBuild) k₀ typedAndRead u → InBuffer u := by
  obtain ⟨k₀, hb⟩ := sample_boots
  have hpos : k₀.keyboard.keyBufferPos.toNat = 0 := by
    rw [(boots_lines hb).1]
    rfl
  obtain ⟨-, hstored, -⟩ := Kernel.enterChar_stored (k := k₀) (c := 97) (by rw [hpos]; decide)
    (by decide)
  have htype : k₀.event sampleBuild (.key (.char 97)) = some (k₀.enterChar 97) := rfl
  have hleft : (k₀.enterChar 97).event sampleBuild (.key .left) =
      some (k₀.enterChar 97).moveCursorLeft := rfl
  have henter : (k₀.enterChar 97).moveCursorLeft.event sampleBuild (.key .enter) =
      some (k₀.enterChar 97).moveCursorLeft.handleEnter := rfl
  obtain ⟨k, hread⟩ : ∃ k, (k₀.enterChar 97).moveCursorLeft.handleEnter.event sampleBuild
      (.read 10) = some k := by
    refine Option.isSome_iff_exists.mp ?_
    simp [Kernel.event, Kernel.terminalRead, Kernel.handleEnter]
  have hr : run (Kernel.event sampleBuild) k₀ typedAndRead = some k := by
    rw [typedAndRead, run_cons_of htype, run_cons_of hleft, run_cons_of henter, run_cons_of hread]
    rfl
  refine ⟨k₀, k, hb, hr, (inBuffer_iff hb hr).mpr fun u e hv ↦ ?_⟩
  rcases visits_next htype hv with ⟨rfl, rfl⟩ | hv
  · trivial
  rcases visits_next hleft hv with ⟨rfl, rfl⟩ | hv
  · refine .inr ?_
    rw [hstored, hpos]
    decide
  rcases visits_next henter hv with ⟨rfl, rfl⟩ | hv
  · trivial
  · obtain ⟨rfl, rfl⟩ := visits_singleton hv
    exact .inl (by decide)

end Sample

/-- The position wraps below zero. -/
theorem inBuffer_lost : ∃ k₀ k, Boots sampleBuild sampleMachine k₀ ∧
    run (Kernel.event sampleBuild) k₀ arrowAtLineStart = some k ∧
    k.keyboard.keyBufferPos.toNat = 2 ^ 32 - 1 ∧ ¬ InBuffer k := by
  obtain ⟨k₀, hb⟩ := sample_boots
  obtain ⟨k, hr, hpos⟩ := arrowAtLineStart_run (b := sampleBuild) k₀
  have hwrap : k.keyboard.keyBufferPos.toNat = 2 ^ 32 - 1 := by
    rw [hpos, (boots_lines hb).1]
    decide
  refine ⟨k₀, k, hb, hr, hwrap, fun h ↦ ?_⟩
  have hle := h.pos
  rw [hwrap] at hle
  exact absurd hle (by decide)

end ApollOS
