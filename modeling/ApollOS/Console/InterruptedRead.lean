import ApollOS.Console.LineDiscipline

namespace ApollOS

open Function Runs

/-- Where a process is in `terminal_read`, with what it has copied so far, or in
the `clear_buffer` that it calls. -/
inductive ReadPoint
  | idle
  | waiting (nbytes : ℤ)
  | lowering (nbytes : ℤ)
  | testing (nbytes : ℤ) (bytes : List UInt8)
  | copying (nbytes : ℤ) (bytes : List UInt8)
  | resettingPos (bytes : List UInt8)
  | resettingBound (bytes : List UInt8)
  | wiping (i : ℕ) (bytes : List UInt8)
  | returned (bytes : List UInt8)
  deriving DecidableEq, Repr

def ReadPoint.Clearing : ReadPoint → Prop
  | resettingBound _ => True
  | wiping _ _ => True
  | _ => False

/-- A process that reads from its terminal, and keys that interrupt it. -/
structure Reader where
  kernel : Kernel
  point : ReadPoint

inductive Stroke
  | char (c : UInt8)
  | backspace
  | enter
  deriving DecidableEq, Repr

def Stroke.key : Stroke → Key
  | char c => .char c
  | backspace => .backspace
  | enter => .enter

/-- `terminal_read` is called, it comes to its next statement, or a key is handled
in between. -/
inductive ReadEvent
  | call (nbytes : ℤ)
  | statement
  | stroke (stroke : Stroke)
  deriving DecidableEq, Repr

namespace Kernel

variable (k : Kernel)

def lowerEnter : Kernel := { k with keyboard := { k.keyboard with enterPressed := false } }

def resetPos : Kernel := { k with keyboard := { k.keyboard with keyBufferPos := 0 } }

def resetBound : Kernel := { k with keyboard := { k.keyboard with rightBound := 7 } }

end Kernel

namespace Reader

/-- One statement, or one test of a loop, of `terminal_read` and `clear_buffer`. -/
def statement (s : Reader) : Option Reader :=
  match s.point with
  | .idle => none
  | .waiting nbytes =>
    some { s with
      point := if s.kernel.keyboard.enterPressed then .lowering nbytes else .waiting nbytes }
  | .lowering nbytes => some ⟨s.kernel.lowerEnter, .testing nbytes []⟩
  | .testing nbytes bytes =>
    some { s with
      point := if s.kernel.keys.charAt bytes.length ≠ 0 ∧ (bytes.length : ℤ) < nbytes then
        .copying nbytes bytes else .resettingPos bytes }
  | .copying nbytes bytes =>
    some { s with
      point := .testing nbytes (bytes ++ [s.kernel.keys.charAt bytes.length]) }
  | .resettingPos bytes => some ⟨s.kernel.resetPos, .resettingBound bytes⟩
  | .resettingBound bytes => some ⟨s.kernel.resetBound, .wiping 0 bytes⟩
  | .wiping i bytes =>
    if i < keyBufferSize then some ⟨s.kernel.storeKey i 0, .wiping (i + 1) bytes⟩
    else some { s with point := .returned bytes }
  | .returned _ => none

def step (s : Reader) (e : ReadEvent) : Option Reader :=
  match e with
  | .call nbytes =>
    match s.point with
    | .idle => some { s with point := .waiting nbytes }
    | .returned _ => some { s with point := .waiting nbytes }
    | _ => none
  | .statement => s.statement
  | .stroke stroke => some { s with kernel := s.kernel.pressKey stroke.key }

end Reader

variable {k k' : Kernel} {s s' t : Reader} {e : ReadEvent} {es : List ReadEvent}
  {bytes : List UInt8} {nbytes : ℤ} {i : ℕ}

/-- The buffer holds the line and nothing else: no NUL below the position, and only
NULs from there on. -/
structure Clean (k : Kernel) : Prop where
  below : ∀ j < k.keyboard.keyBufferPos.toNat, k.keys.charAt j ≠ 0
  above : ∀ j ≥ k.keyboard.keyBufferPos.toNat, k.keys.charAt j = 0

theorem Clean.pos_le (h : Clean k) : k.keyboard.keyBufferPos.toNat ≤ keyBufferSize := by
  by_contra hlt
  exact h.below keyBufferSize (not_le.mp hlt) (KeyBuffer.charAt_of_le le_rfl)

structure LineIntact (s : Reader) : Prop where
  below : ∀ j < s.kernel.keyboard.keyBufferPos.toNat, s.kernel.keys.charAt j ≠ 0
  above : ¬ s.point.Clearing →
    ∀ j ≥ s.kernel.keyboard.keyBufferPos.toNat, s.kernel.keys.charAt j = 0

/-- The loop of `clear_buffer` comes to a character that was typed since the
position was reset. -/
def WipesTyped (s : Reader) (e : ReadEvent) : Prop :=
  e = .statement ∧ ∃ i bytes, s.point = .wiping i bytes ∧ i < keyBufferSize ∧
    i < s.kernel.keyboard.keyBufferPos.toNat

/-- The position stays in the buffer, and what the loop has wiped stays wiped unless
it is typed again. -/
structure Wiped (s : Reader) : Prop where
  pos_le : s.kernel.keyboard.keyBufferPos.toNat ≤ keyBufferSize
  wiped : ∀ i bytes, s.point = .wiping i bytes →
    ∀ j < i, s.kernel.keyboard.keyBufferPos.toNat ≤ j → s.kernel.keys.charAt j = 0

theorem stroke_cases (k : Kernel) (stroke : Stroke) :
    ((k.pressKey stroke.key).keys = k.keys ∧
      (k.pressKey stroke.key).keyboard.keyBufferPos = k.keyboard.keyBufferPos) ∨
    (∃ c, c ≠ 0 ∧ k.keyboard.keyBufferPos.toNat < keyBufferSize ∧
      (k.pressKey stroke.key).keys = k.keys.put k.keyboard.keyBufferPos.toNat c ∧
      (k.pressKey stroke.key).keyboard.keyBufferPos.toNat = k.keyboard.keyBufferPos.toNat + 1) ∨
    (0 < k.keyboard.keyBufferPos.toNat ∧
      (k.pressKey stroke.key).keys = k.keys.put (k.keyboard.keyBufferPos.toNat - 1) 0 ∧
      (k.pressKey stroke.key).keyboard.keyBufferPos.toNat =
        k.keyboard.keyBufferPos.toNat - 1) := by
  cases stroke with
  | char c =>
    rcases Nat.lt_or_ge k.keyboard.keyBufferPos.toNat keyBufferSize with hlt | hge
    · by_cases hc : c = 0
      · subst hc
        have hsame : k.pressKey (Stroke.char 0).key = k := Kernel.enterChar_nul
        rw [hsame]
        exact .inl ⟨rfl, rfl⟩
      · obtain ⟨hkeys, hpos, -⟩ := Kernel.enterChar_stored hlt hc
        exact .inr (.inl ⟨c, hc, hlt, hkeys, hpos⟩)
    · have hsame : k.pressKey (Stroke.char c).key = k := Kernel.enterChar_full hge
      rw [hsame]
      exact .inl ⟨rfl, rfl⟩
  | backspace =>
    rcases Nat.eq_zero_or_pos k.keyboard.keyBufferPos.toNat with hzero | hpos
    · have hsame : k.pressKey Stroke.backspace.key = k := Kernel.handleBackpace_zero hzero
      rw [hsame]
      exact .inl ⟨rfl, rfl⟩
    · obtain ⟨hkeys, hpos', -⟩ := Kernel.handleBackpace_erased hpos
      exact .inr (.inr ⟨hpos, hkeys, hpos'⟩)
  | enter => exact .inl ⟨rfl, rfl⟩

namespace Wiped

theorem stroke (h : Wiped s) (x : Stroke) : Wiped { s with kernel := s.kernel.pressKey x.key } := by
  rcases stroke_cases s.kernel x with ⟨hkeys, hpos⟩ | ⟨c, hc, hlt, hkeys, hpos⟩ |
    ⟨hpos₀, hkeys, hpos⟩
  · refine ⟨by rw [hpos]; exact h.pos_le, fun i bytes hi j hj hge ↦ ?_⟩
    rw [hpos] at hge
    rw [hkeys]
    exact h.wiped i bytes hi j hj hge
  · refine ⟨by rw [hpos]; exact hlt, fun i bytes hi j hj hge ↦ ?_⟩
    rw [hpos] at hge
    rw [hkeys, KeyBuffer.charAt_put hlt, if_neg (by omega)]
    exact h.wiped i bytes hi j hj (by omega)
  · have hle := h.pos_le
    refine ⟨by rw [hpos]; omega, fun i bytes hi j hj hge ↦ ?_⟩
    rw [hpos] at hge
    rw [hkeys, KeyBuffer.charAt_put (by omega)]
    split_ifs with hj'
    · rfl
    · exact h.wiped i bytes hi j hj (by omega)

theorem congr (h : Wiped s) (hkeys : s'.kernel.keys = s.kernel.keys)
    (hpos : s'.kernel.keyboard.keyBufferPos = s.kernel.keyboard.keyBufferPos)
    (hpoint : ∀ i bytes, s'.point = .wiping i bytes → s.point = .wiping i bytes ∨ i = 0) :
    Wiped s' := by
  refine ⟨by rw [hpos]; exact h.pos_le, fun i bytes hi j hj hge ↦ ?_⟩
  rw [hpos] at hge
  rw [hkeys]
  rcases hpoint i bytes hi with hi | rfl
  · exact h.wiped i bytes hi j hj hge
  · exact absurd hj (Nat.not_lt_zero j)

theorem statement (h : Wiped s) (hs : s.statement = some s') : Wiped s' := by
  obtain ⟨k, point⟩ := s
  cases point with
  | idle => nomatch hs
  | waiting nbytes =>
    obtain rfl := Option.some.inj hs
    refine h.congr rfl rfl fun i bytes hi ↦ ?_
    dsimp only at hi
    split_ifs at hi
  | lowering nbytes =>
    obtain rfl := Option.some.inj hs
    exact h.congr rfl rfl fun i bytes hi ↦ nomatch hi
  | testing nbytes bytes =>
    obtain rfl := Option.some.inj hs
    refine h.congr rfl rfl fun i bytes hi ↦ ?_
    dsimp only at hi
    split_ifs at hi
  | copying nbytes bytes =>
    obtain rfl := Option.some.inj hs
    exact h.congr rfl rfl fun i bytes hi ↦ nomatch hi
  | resettingPos bytes =>
    obtain rfl := Option.some.inj hs
    exact ⟨Nat.zero_le _, fun i bytes hi ↦ nomatch hi⟩
  | resettingBound bytes =>
    obtain rfl := Option.some.inj hs
    refine h.congr rfl rfl fun i bytes hi ↦ .inr ?_
    exact (ReadPoint.wiping.inj hi).1.symm
  | wiping i bytes =>
    simp only [Reader.statement] at hs
    split_ifs at hs with hlt
    · obtain rfl := Option.some.inj hs
      refine ⟨h.pos_le, fun n bytes' hn j hj hge ↦ ?_⟩
      obtain ⟨rfl, -⟩ := ReadPoint.wiping.inj hn
      rw [Kernel.keys_storeKey, KeyBuffer.charAt_put hlt]
      split_ifs with hji
      · rfl
      · exact h.wiped i bytes rfl j (by omega) hge
    · obtain rfl := Option.some.inj hs
      exact h.congr rfl rfl fun i bytes hi ↦ nomatch hi
  | returned bytes => nomatch hs

theorem step (h : Wiped s) (hs : s.step e = some s') : Wiped s' := by
  cases e with
  | call nbytes =>
    obtain ⟨k, point⟩ := s
    cases point with
    | idle =>
      obtain rfl := Option.some.inj hs
      exact h.congr rfl rfl fun i bytes hi ↦ nomatch hi
    | returned bytes =>
      obtain rfl := Option.some.inj hs
      exact h.congr rfl rfl fun i bytes hi ↦ nomatch hi
    | _ => nomatch hs
  | statement => exact h.statement hs
  | stroke x =>
    obtain rfl := Option.some.inj hs
    exact h.stroke x

end Wiped

theorem LineIntact.stroke (h : LineIntact s)
    (hle : s.kernel.keyboard.keyBufferPos.toNat ≤ keyBufferSize) (x : Stroke) :
    LineIntact { s with kernel := s.kernel.pressKey x.key } := by
  rcases stroke_cases s.kernel x with ⟨hkeys, hpos⟩ | ⟨c, hc, hlt, hkeys, hpos⟩ |
    ⟨hpos₀, hkeys, hpos⟩
  · constructor
    · rw [hpos, hkeys]
      exact h.below
    · rw [hpos, hkeys]
      exact h.above
  · constructor
    · intro j hj
      rw [hpos] at hj
      rw [hkeys, KeyBuffer.charAt_put hlt]
      split_ifs with hlast
      · exact hc
      · exact h.below j (by omega)
    · intro hpoint j hj
      rw [hpos] at hj
      rw [hkeys, KeyBuffer.charAt_put hlt, if_neg (by omega)]
      exact h.above hpoint j (by omega)
  · constructor
    · intro j hj
      rw [hpos] at hj
      rw [hkeys, KeyBuffer.charAt_put (by omega), if_neg (by omega)]
      exact h.below j (by omega)
    · intro hpoint j hj
      rw [hpos] at hj
      rw [hkeys, KeyBuffer.charAt_put (by omega)]
      split_ifs with hlast
      · rfl
      · exact h.above hpoint j (by omega)

theorem LineIntact.congr (h : LineIntact s) (hkeys : s'.kernel.keys = s.kernel.keys)
    (hpos : s'.kernel.keyboard.keyBufferPos = s.kernel.keyboard.keyBufferPos)
    (hpoint : s.point.Clearing → s'.point.Clearing) : LineIntact s' := by
  constructor
  · rw [hkeys, hpos]
    exact h.below
  · intro hclear
    rw [hkeys, hpos]
    exact h.above fun hc ↦ hclear (hpoint hc)

/-- Of all the statements only the loop of `clear_buffer` can break the line, and
does so exactly at a character that was typed. -/
theorem lineIntact_statement_iff (hw : Wiped s) (h : LineIntact s) (hs : s.statement = some s') :
    LineIntact s' ↔ ¬ WipesTyped s .statement := by
  obtain ⟨k, point⟩ := s
  by_cases hwiping : ∃ i bytes, point = .wiping i bytes
  · obtain ⟨i, bytes, rfl⟩ := hwiping
    simp only [Reader.statement] at hs
    split_ifs at hs with hlt
    · obtain rfl := Option.some.inj hs
      constructor
      · rintro h' ⟨-, n, bytes', hn, -, hpos⟩
        obtain ⟨rfl, -⟩ := ReadPoint.wiping.inj hn
        refine h'.below i hpos ?_
        rw [Kernel.keys_storeKey, KeyBuffer.charAt_put hlt, if_pos rfl]
      · intro hno
        refine ⟨fun j hj ↦ ?_, fun hclear ↦ absurd trivial hclear⟩
        have hji : j ≠ i := by
          rintro rfl
          exact hno ⟨rfl, j, bytes, rfl, hlt, hj⟩
        rw [Kernel.keys_storeKey, KeyBuffer.charAt_put hlt, if_neg hji]
        exact h.below j hj
    · obtain rfl := Option.some.inj hs
      refine iff_of_true ⟨h.below, fun _ j hj ↦ ?_⟩ ?_
      · rcases Nat.lt_or_ge j keyBufferSize with hj' | hj'
        · exact hw.wiped i bytes rfl j (by omega) hj
        · exact KeyBuffer.charAt_of_le hj'
      · rintro ⟨-, n, bytes', hn, hlt', -⟩
        obtain ⟨rfl, -⟩ := ReadPoint.wiping.inj hn
        exact hlt hlt'
  · refine iff_of_true ?_ fun ⟨_, i, bytes, hi, _⟩ ↦ hwiping ⟨i, bytes, hi⟩
    cases point with
    | idle => nomatch hs
    | waiting nbytes =>
      obtain rfl := Option.some.inj hs
      exact h.congr rfl rfl False.elim
    | lowering nbytes =>
      obtain rfl := Option.some.inj hs
      exact h.congr rfl rfl False.elim
    | testing nbytes bytes =>
      obtain rfl := Option.some.inj hs
      exact h.congr rfl rfl False.elim
    | copying nbytes bytes =>
      obtain rfl := Option.some.inj hs
      exact h.congr rfl rfl False.elim
    | resettingPos bytes =>
      obtain rfl := Option.some.inj hs
      exact ⟨fun j hj ↦ absurd hj (Nat.not_lt_zero j), fun hclear ↦ absurd trivial hclear⟩
    | resettingBound bytes =>
      obtain rfl := Option.some.inj hs
      exact h.congr rfl rfl fun _ ↦ trivial
    | wiping i bytes => exact absurd ⟨i, bytes, rfl⟩ hwiping
    | returned bytes => nomatch hs

theorem lineIntact_step_iff (hw : Wiped s) (h : LineIntact s) (hs : s.step e = some s') :
    LineIntact s' ↔ ¬ WipesTyped s e := by
  cases e with
  | call nbytes =>
    refine iff_of_true ?_ fun ⟨he, _⟩ ↦ nomatch he
    obtain ⟨k, point⟩ := s
    cases point with
    | idle =>
      obtain rfl := Option.some.inj hs
      exact h.congr rfl rfl False.elim
    | returned bytes =>
      obtain rfl := Option.some.inj hs
      exact h.congr rfl rfl False.elim
    | _ => nomatch hs
  | statement => exact lineIntact_statement_iff hw h hs
  | stroke x =>
    obtain rfl := Option.some.inj hs
    exact iff_of_true (h.stroke hw.pos_le x) fun ⟨he, _⟩ ↦ nomatch he

/-- However keys and statements follow on each other: as long as the loop of
`clear_buffer` meets no character that was typed meanwhile, the buffer holds the
line and nothing else whenever no `clear_buffer` is in progress; and what was
typed stays in the buffer throughout exactly in that case. -/
theorem interrupted_reader (hk : Clean k)
    (hr : run Reader.step ⟨k, .idle⟩ es = some t) :
    ((∀ u e, Visits Reader.step ⟨k, .idle⟩ es u e → ¬ WipesTyped u e) →
      ∀ u, Passes Reader.step ⟨k, .idle⟩ es u → ¬ u.point.Clearing → Clean u.kernel) ∧
    ((∀ u, Passes Reader.step ⟨k, .idle⟩ es u → LineIntact u) ↔
      ∀ u e, Visits Reader.step ⟨k, .idle⟩ es u e → ¬ WipesTyped u e) := by
  have hiff := forall_passes_iff (P := LineIntact) (J := Wiped) (G := fun u e ↦ ¬ WipesTyped u e)
    (fun _ _ _ hw _ hs ↦ hw.step hs) (fun _ _ _ hw h hs ↦ lineIntact_step_iff hw h hs)
    ⟨hk.below, fun _ ↦ hk.above⟩ ⟨hk.pos_le, by rintro i bytes ⟨⟩⟩ hr
  refine ⟨fun hg u hu hclear ↦ ?_, hiff⟩
  have hline := hiff.mpr hg u hu
  exact ⟨hline.below, hline.above hclear⟩

section Uninterrupted

def Alone (s t : Reader) : Prop :=
  ∃ n, run Reader.step s (List.replicate n .statement) = some t

theorem Alone.refl : Alone s s := ⟨0, rfl⟩

theorem Alone.head {u : Reader} (hs : s.statement = some u) (h : Alone u t) : Alone s t := by
  obtain ⟨n, hn⟩ := h
  exact ⟨n + 1, run_cons_eq_some.mpr ⟨u, hs, hn⟩⟩

theorem Alone.trans (h : Alone s s') (h' : Alone s' t) : Alone s t := by
  obtain ⟨n, hn⟩ := h
  obtain ⟨m, hm⟩ := h'
  refine ⟨n + m, ?_⟩
  rw [List.replicate_add, run_append, hn]
  exact hm

theorem alone_copy {l : List UInt8} (n : ℕ) (hn : (nbytes - l.length).toNat = n) :
    Alone ⟨k, .testing nbytes l⟩
      ⟨k, .resettingPos (l ++ Kernel.readLoop k.keys n l.length)⟩ := by
  induction n generalizing l with
  | zero =>
    have hstop : ¬ ((l.length : ℤ) < nbytes) := by omega
    refine Alone.head (u := ⟨k, .resettingPos l⟩) ?_ ?_
    · simp only [Reader.statement, hstop, and_false, if_false]
    · rw [Kernel.readLoop, List.append_nil]
      exact .refl
  | succ n ih =>
    have hroom : (l.length : ℤ) < nbytes := by omega
    by_cases hnul : k.keys.charAt l.length = 0
    · refine Alone.head (u := ⟨k, .resettingPos l⟩) ?_ ?_
      · simp only [Reader.statement, hnul, ne_eq, not_true_eq_false, false_and, if_false]
      · rw [Kernel.readLoop, if_pos hnul, List.append_nil]
        exact .refl
    · refine Alone.head (u := ⟨k, .copying nbytes l⟩) ?_ (Alone.head rfl ?_)
      · simp only [Reader.statement, hnul, ne_eq, not_false_eq_true, hroom, and_self, if_true]
      · have hlen : (l ++ [k.keys.charAt l.length]).length = l.length + 1 := by simp
        have hcopy := ih (l := l ++ [k.keys.charAt l.length]) (by omega)
        rw [hlen, List.append_assoc] at hcopy
        rw [Kernel.readLoop, if_neg hnul]
        exact hcopy

def Kernel.withKeys (k : Kernel) (buf : KeyBuffer) (touched : List ℕ) : Kernel :=
  { k.setTerminal k.keyBuffer fun t ↦ { t with keyBuffer := buf } with
    keyboard := { k.keyboard with touched := touched } }

theorem Kernel.withKeys_self : k.withKeys k.keys k.keyboard.touched = k := by
  have hterm : update k.terminal k.keyBuffer
      { k.terminal k.keyBuffer with keyBuffer := k.keys } = k.terminal := update_eq_self _ _
  simp only [withKeys, setTerminal, hterm]

theorem Kernel.withKeys_storeKey {c : UInt8} {buf : KeyBuffer} {touched : List ℕ} :
    (k.storeKey i c).withKeys buf touched = k.withKeys buf touched := by
  simp only [withKeys, storeKey, setTerminal, update_self, update_idem]

@[simp] theorem Kernel.keys_withKeys {buf : KeyBuffer} {touched : List ℕ} :
    (k.withKeys buf touched).keys = buf := by
  simp [withKeys, keys, setTerminal]

theorem run_wipe (bytes : List UInt8) (n : ℕ) (hn : i + n = keyBufferSize) : ∃ buf touched,
    run Reader.step ⟨k, .wiping i bytes⟩ (List.replicate (n + 1) .statement) =
      some ⟨k.withKeys buf touched, .returned bytes⟩ ∧
      ∀ j, buf.charAt j = if i ≤ j then 0 else k.keys.charAt j := by
  induction n generalizing k i with
  | zero =>
    refine ⟨k.keys, k.keyboard.touched, run_cons_eq_some.mpr ⟨⟨k, .returned bytes⟩, ?_, ?_⟩,
      fun j ↦ ?_⟩
    · simp only [Reader.step, Reader.statement, show ¬ i < keyBufferSize by omega, if_false]
    · rw [Kernel.withKeys_self]
      rfl
    · split_ifs with hj
      · exact KeyBuffer.charAt_of_le (by omega)
      · rfl
  | succ n ih =>
    obtain ⟨buf, touched, hrun, hbuf⟩ := ih (k := k.storeKey i 0) (i := i + 1) (by omega)
    refine ⟨buf, touched,
      run_cons_eq_some.mpr ⟨⟨k.storeKey i 0, .wiping (i + 1) bytes⟩, ?_, ?_⟩, fun j ↦ ?_⟩
    · simp only [Reader.step, Reader.statement, show i < keyBufferSize by omega, if_true]
    · rwa [Kernel.withKeys_storeKey] at hrun
    · rw [hbuf, Kernel.keys_storeKey, KeyBuffer.charAt_put (by omega)]
      split_ifs <;> first | rfl | omega

theorem KeyBuffer.eq_empty {buf : KeyBuffer} (h : ∀ j, buf.charAt j = 0) : buf = empty := by
  refine Vector.ext fun j hj ↦ ?_
  have hchar := h j
  simp only [charAt, Vector.getElem?_eq_getElem hj, Option.getD_some] at hchar
  rw [hchar, empty, Vector.getElem_replicate]

theorem run_clear (k : Kernel) (bytes : List UInt8) : ∃ touched,
    run Reader.step ⟨k, .wiping 0 bytes⟩ (List.replicate (keyBufferSize + 1) .statement) =
      some ⟨k.withKeys KeyBuffer.empty touched, .returned bytes⟩ := by
  obtain ⟨buf, touched, hrun, hbuf⟩ := run_wipe (k := k) bytes keyBufferSize (Nat.zero_add _)
  obtain rfl : buf = KeyBuffer.empty :=
    KeyBuffer.eq_empty fun j ↦ (hbuf j).trans (if_pos (Nat.zero_le j))
  exact ⟨touched, hrun⟩

/-- A read that nothing interrupts is the read of the kernel's model, up to the
record of the indices it has touched. -/
theorem alone_read (h : k.keyboard.enterPressed = true) : ∃ k' bytes touched,
    k.terminalRead nbytes = some (k', bytes) ∧
    Alone ⟨k, .waiting nbytes⟩ ⟨k'.withKeys k'.keys touched, .returned bytes⟩ := by
  let bytes := Kernel.readLoop k.keys nbytes.toNat 0
  have hcopy : Alone ⟨k.lowerEnter, .testing nbytes []⟩ ⟨k.lowerEnter, .resettingPos bytes⟩ :=
    alone_copy (k := k.lowerEnter) (l := []) nbytes.toNat (by simp)
  obtain ⟨touched, hwipe⟩ := run_clear k.lowerEnter.resetPos.resetBound bytes
  rw [Kernel.terminalRead, if_pos h]
  refine ⟨_, bytes, touched, rfl, ?_⟩
  refine Alone.head (u := ⟨k, .lowering nbytes⟩) ?_ (Alone.head rfl (hcopy.trans ?_))
  · simp only [Reader.statement, h, if_true]
  · refine Alone.head rfl (Alone.head rfl ⟨keyBufferSize + 1, ?_⟩)
    rw [Kernel.keys_clearBuffer]
    convert hwipe using 3
    simp [Kernel.withKeys, Kernel.clearBuffer, Kernel.setTerminal, Kernel.lowerEnter,
      Kernel.resetPos, Kernel.resetBound]

end Uninterrupted

section Sample

theorem FreshLine.clean (h : FreshLine k) : Clean k := by
  constructor
  · rw [h.pos]
    exact fun j hj ↦ absurd hj (Nat.not_lt_zero j)
  · rw [h.keys]
    exact fun j _ ↦ KeyBuffer.charAt_empty

/-- An empty line is completed and read, and a key comes when `clear_buffer` has
reset the position. -/
def typedIntoClear : List ReadEvent :=
  [.call 10, .stroke .enter, .statement, .statement, .statement, .statement, .stroke (.char 98),
    .statement]

theorem typedIntoClear_run (h : FreshLine k) : ∃ k',
    run Reader.step ⟨k, .idle⟩ typedIntoClear = some ⟨k', .wiping 0 []⟩ ∧
      k'.keyboard.keyBufferPos.toNat = 1 := by
  have hempty : Reader.statement ⟨k.handleEnter.lowerEnter, .testing 10 []⟩ =
      some ⟨k.handleEnter.lowerEnter, .resettingPos []⟩ := by
    have hkeys : k.handleEnter.lowerEnter.keys = k.keys := rfl
    simp only [Reader.statement, hkeys, h.keys, KeyBuffer.charAt_empty, ne_eq, not_true_eq_false,
      false_and, if_false]
  have hzero : k.handleEnter.lowerEnter.resetPos.keyboard.keyBufferPos.toNat = 0 := rfl
  obtain ⟨-, hpos, -⟩ := Kernel.enterChar_stored (k := k.handleEnter.lowerEnter.resetPos) (c := 98)
    (by rw [hzero]; decide) (by decide)
  refine ⟨(k.handleEnter.lowerEnter.resetPos.enterChar 98).resetBound, ?_, hpos⟩
  refine run_cons_eq_some.mpr ⟨⟨k, .waiting 10⟩, rfl, ?_⟩
  refine run_cons_eq_some.mpr ⟨⟨k.handleEnter, .waiting 10⟩, rfl, ?_⟩
  refine run_cons_eq_some.mpr ⟨⟨k.handleEnter, .lowering 10⟩, rfl, ?_⟩
  refine run_cons_eq_some.mpr ⟨⟨k.handleEnter.lowerEnter, .testing 10 []⟩, rfl, ?_⟩
  refine run_cons_eq_some.mpr ⟨⟨k.handleEnter.lowerEnter, .resettingPos []⟩, hempty, ?_⟩
  refine run_cons_eq_some.mpr
    ⟨⟨k.handleEnter.lowerEnter.resetPos, .resettingBound []⟩, rfl, ?_⟩
  exact run_cons_eq_some.mpr
    ⟨⟨k.handleEnter.lowerEnter.resetPos.enterChar 98, .resettingBound []⟩, rfl, rfl⟩

end Sample

/-- The character is on the screen and counted, and the buffer does not have it. -/
theorem typed_key_wiped : ∃ k t, Boots sampleBuild sampleMachine k ∧ Clean k ∧
    run Reader.step ⟨k, .idle⟩
      (typedIntoClear ++ List.replicate (keyBufferSize + 1) .statement) = some t ∧
    ¬ t.point.Clearing ∧ ¬ Clean t.kernel := by
  obtain ⟨k, hb⟩ := sample_boots
  have hfresh := boots_freshLine hb
  obtain ⟨k', hrun, hpos⟩ := typedIntoClear_run hfresh
  obtain ⟨touched, hclear⟩ := run_clear k' []
  refine ⟨k, ⟨k'.withKeys KeyBuffer.empty touched, .returned []⟩, hb, hfresh.clean, ?_,
    id, fun hclean ↦ ?_⟩
  · rw [run_append, hrun, Option.bind_some, hclear]
  · have hlt : 0 < (k'.withKeys KeyBuffer.empty touched).keyboard.keyBufferPos.toNat := by
      have hsame : (k'.withKeys KeyBuffer.empty touched).keyboard.keyBufferPos =
          k'.keyboard.keyBufferPos := rfl
      rw [hsame, hpos]
      exact Nat.one_pos
    refine hclean.below 0 hlt ?_
    rw [Kernel.keys_withKeys, KeyBuffer.charAt_empty]

section Sample

theorem not_wipesTyped (h : ∀ i bytes, s.point ≠ .wiping i bytes) : ¬ WipesTyped s e :=
  fun ⟨_, i, bytes, hpoint, _⟩ ↦ h i bytes hpoint

/-- The loop finds nothing that was typed if it is already behind it. -/
theorem wipes_behind (n : ℕ) (hpos : k.keyboard.keyBufferPos.toNat ≤ i)
    (hv : Visits Reader.step ⟨k, .wiping i bytes⟩ (List.replicate n .statement) t e) :
    ¬ WipesTyped t e := by
  induction n generalizing k i with
  | zero => exact (visits_nil hv).elim
  | succ n ih =>
    rw [List.replicate_succ] at hv
    by_cases hi : i < keyBufferSize
    · have hstep : Reader.step ⟨k, .wiping i bytes⟩ .statement =
          some ⟨k.storeKey i 0, .wiping (i + 1) bytes⟩ := if_pos hi
      rcases visits_next hstep hv with ⟨rfl, rfl⟩ | hv
      · rintro ⟨-, j, bytes', hpoint, -, hlt⟩
        cases hpoint
        exact absurd hlt (Nat.not_lt.mpr hpos)
      · exact ih (k := k.storeKey i 0) (hpos.trans (Nat.le_succ i)) hv
    · have hstep : Reader.step ⟨k, .wiping i bytes⟩ .statement = some ⟨k, .returned bytes⟩ :=
        if_neg hi
      rcases visits_next hstep hv with ⟨rfl, rfl⟩ | hv
      · rintro ⟨-, j, bytes', hpoint, hlt, -⟩
        cases hpoint
        exact hi hlt
      · cases n with
        | zero => exact (visits_nil hv).elim
        | succ n =>
          rcases visits_cons hv with ⟨rfl, -⟩ | ⟨u, hu, -⟩
          · exact not_wipesTyped fun _ _ hpoint ↦ ReadPoint.noConfusion hpoint
          · cases hu

/-- An empty line is completed and read, and a key comes when the loop of `clear_buffer` has done
its first round. -/
def typedBehindClear : List ReadEvent :=
  [.call 10, .stroke .enter, .statement, .statement, .statement, .statement, .statement,
    .statement, .stroke (.char 98)]

theorem typedBehindClear_run (h : FreshLine k) : ∃ k',
    run Reader.step ⟨k, .idle⟩ typedBehindClear = some ⟨k', .wiping 1 []⟩ ∧
      k'.keyboard.keyBufferPos.toNat = 1 ∧ k'.keys.charAt 0 = 98 ∧
      ∀ u e, Visits Reader.step ⟨k, .idle⟩ typedBehindClear u e → ¬ WipesTyped u e := by
  let k₁ := k.handleEnter.lowerEnter.resetPos
  let k₂ := k₁.resetBound.storeKey 0 0
  have hcall : Reader.step ⟨k, .idle⟩ (.call 10) = some ⟨k, .waiting 10⟩ := rfl
  have henter : Reader.step ⟨k, .waiting 10⟩ (.stroke .enter) =
      some ⟨k.handleEnter, .waiting 10⟩ := rfl
  have hwait : Reader.step ⟨k.handleEnter, .waiting 10⟩ .statement =
      some ⟨k.handleEnter, .lowering 10⟩ := rfl
  have hlower : Reader.step ⟨k.handleEnter, .lowering 10⟩ .statement =
      some ⟨k.handleEnter.lowerEnter, .testing 10 []⟩ := rfl
  have hempty : Reader.step ⟨k.handleEnter.lowerEnter, .testing 10 []⟩ .statement =
      some ⟨k.handleEnter.lowerEnter, .resettingPos []⟩ := by
    have hkeys : k.handleEnter.lowerEnter.keys = k.keys := rfl
    simp only [Reader.step, Reader.statement, hkeys, h.keys, KeyBuffer.charAt_empty, ne_eq,
      not_true_eq_false, false_and, if_false]
  have hreset : Reader.step ⟨k.handleEnter.lowerEnter, .resettingPos []⟩ .statement =
      some ⟨k₁, .resettingBound []⟩ := rfl
  have hbound : Reader.step ⟨k₁, .resettingBound []⟩ .statement =
      some ⟨k₁.resetBound, .wiping 0 []⟩ := rfl
  have hwipe : Reader.step ⟨k₁.resetBound, .wiping 0 []⟩ .statement =
      some ⟨k₂, .wiping 1 []⟩ := rfl
  have hkey : Reader.step ⟨k₂, .wiping 1 []⟩ (.stroke (.char 98)) =
      some ⟨k₂.enterChar 98, .wiping 1 []⟩ := rfl
  have hzero : k₂.keyboard.keyBufferPos.toNat = 0 := rfl
  obtain ⟨hkeys, hpos, -⟩ := Kernel.enterChar_stored (k := k₂) (c := 98)
    (by rw [hzero]; decide) (by decide)
  refine ⟨k₂.enterChar 98, ?_, hpos, ?_, fun u e hv ↦ ?_⟩
  · rw [typedBehindClear, run_cons_of hcall, run_cons_of henter, run_cons_of hwait,
      run_cons_of hlower, run_cons_of hempty, run_cons_of hreset, run_cons_of hbound,
      run_cons_of hwipe, run_cons_of hkey]
    rfl
  · rw [hkeys, hzero, KeyBuffer.charAt_put (by decide), if_pos rfl]
  · rcases visits_next hcall hv with ⟨rfl, rfl⟩ | hv
    · exact not_wipesTyped nofun
    rcases visits_next henter hv with ⟨rfl, rfl⟩ | hv
    · exact not_wipesTyped nofun
    rcases visits_next hwait hv with ⟨rfl, rfl⟩ | hv
    · exact not_wipesTyped nofun
    rcases visits_next hlower hv with ⟨rfl, rfl⟩ | hv
    · exact not_wipesTyped nofun
    rcases visits_next hempty hv with ⟨rfl, rfl⟩ | hv
    · exact not_wipesTyped nofun
    rcases visits_next hreset hv with ⟨rfl, rfl⟩ | hv
    · exact not_wipesTyped nofun
    rcases visits_next hbound hv with ⟨rfl, rfl⟩ | hv
    · exact not_wipesTyped nofun
    rcases visits_next hwipe hv with ⟨rfl, rfl⟩ | hv
    · rintro ⟨-, j, bytes', hpoint, -, hlt⟩
      cases hpoint
      exact absurd hlt (hzero ▸ Nat.not_lt_zero 0)
    · obtain ⟨rfl, rfl⟩ := visits_singleton hv
      rintro ⟨he, -⟩
      cases he

end Sample

theorem interrupted_reader_sample : ∃ k t, Boots sampleBuild sampleMachine k ∧
    run Reader.step ⟨k, .idle⟩ (typedBehindClear ++ List.replicate keyBufferSize .statement) =
      some t ∧ t.point = .returned [] ∧ Clean t.kernel ∧
    t.kernel.keyboard.keyBufferPos.toNat = 1 ∧ t.kernel.keys.charAt 0 = 98 ∧
    ∀ u, Passes Reader.step ⟨k, .idle⟩
      (typedBehindClear ++ List.replicate keyBufferSize .statement) u → LineIntact u := by
  obtain ⟨k, hb⟩ := sample_boots
  have hfresh := boots_freshLine hb
  obtain ⟨k', hrun, hpos, hchar, hsafe⟩ := typedBehindClear_run hfresh
  obtain ⟨n, hn⟩ : ∃ n, keyBufferSize = n + 1 := ⟨127, rfl⟩
  obtain ⟨buf, touched, hwiped, hbuf⟩ := run_wipe (k := k') (i := 1) [] n (by rw [hn, add_comm])
  have hr : run Reader.step ⟨k, .idle⟩
      (typedBehindClear ++ List.replicate keyBufferSize .statement) =
      some ⟨k'.withKeys buf touched, .returned []⟩ := by
    rw [run_append, hrun, Option.bind_some, hn, hwiped]
  have hno (u : Reader) (e : ReadEvent) (hv : Visits Reader.step ⟨k, .idle⟩
      (typedBehindClear ++ List.replicate keyBufferSize .statement) u e) : ¬ WipesTyped u e := by
    rcases visits_append hrun hv with hv | hv
    · exact hsafe u e hv
    · exact wipes_behind keyBufferSize hpos.le hv
  obtain ⟨hclean, hintact⟩ := interrupted_reader hfresh.clean hr
  have hback : ¬ (ReadPoint.returned []).Clearing := id
  refine ⟨k, _, hb, hr, rfl, hclean hno _ (.stop hr) hback, hpos, ?_, hintact.mpr hno⟩
  rw [Kernel.keys_withKeys, hbuf, if_neg (Nat.not_lt_zero 0 ∘ Nat.lt_of_succ_le), hchar]

end ApollOS
