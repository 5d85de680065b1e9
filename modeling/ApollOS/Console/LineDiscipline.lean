import ApollOS.Console.Switching
import ApollOS.Foundation.LineEditor

namespace ApollOS

open Function Runs LineEditor

variable {b : Build} {k : Kernel} {c : UInt8}

/-- What a key does to the reference line. -/
def Key.edit : Key → Option (Edit UInt8)
  | .char c => if c = 0 then none else some (.insert c)
  | .backspace => some .erase
  | .ctrlL => some .clear
  | .enter => some .complete
  | .left => none
  | .right => none

def Event.OnLine : Event → Prop
  | .key .left => False
  | .key .right => False
  | .switch _ => False
  | _ => True

/-- The kernel next to a reference editor that gets the same keys, with what the
reads have asked for and got. -/
structure Session where
  kernel : Kernel
  editor : Editor UInt8
  reads : List (ℤ × List UInt8)

namespace Session

def start (k : Kernel) : Session := ⟨k, .start, []⟩

def step (b : Build) (s : Session) (e : Event) : Option Session :=
  match e with
  | .read nbytes => (s.kernel.terminalRead nbytes).map fun (k, bytes) ↦
      { s with kernel := k, reads := s.reads ++ [(nbytes, bytes)] }
  | .key key => some
      { s with
        kernel := s.kernel.pressKey key
        editor := (key.edit.map (s.editor.apply keyBufferSize)).getD s.editor }
  | e => (s.kernel.event b e).map fun k ↦ { s with kernel := k }

end Session

structure FreshLine (k : Kernel) : Prop where
  keys : k.keys = KeyBuffer.empty
  pos : k.keyboard.keyBufferPos = 0
  enter : k.keyboard.enterPressed = false

/-- The events after which the buffer still holds the line: while a line waits to
be read nothing is typed, and Enter comes where the buffer ends. -/
def KeepsLine (k : Kernel) : Event → Prop
  | .key (.char c) => k.keyboard.enterPressed = true → c = 0
  | .key .backspace => k.keyboard.enterPressed = true → k.keyboard.keyBufferPos = 0
  | .key .enter => k.keyboard.enterPressed = false ∧
      (k.keyboard.keyBufferPos = keyBufferSize.toUInt32 ∨
        k.keys.charAt k.keyboard.keyBufferPos.toNat = 0)
  | _ => True

structure Typed (k : Kernel) (l : List UInt8) : Prop where
  pos : k.keyboard.keyBufferPos.toNat = l.length
  length_le : l.length ≤ keyBufferSize
  chars : ∀ j (h : j < l.length), k.keys.charAt j = l[j] ∧ l[j] ≠ 0

namespace Typed

variable {k' : Kernel} {line : List UInt8}

theorem nil (h : k.keyboard.keyBufferPos.toNat = 0) : Typed k [] :=
  ⟨h, Nat.zero_le _, fun _ hj ↦ absurd hj (Nat.not_lt_zero _)⟩

theorem insert (h : Typed k line) (hlt : line.length < keyBufferSize) (hc : c ≠ 0)
    (hkeys : k'.keys = k.keys.put k.keyboard.keyBufferPos.toNat c)
    (hpos : k'.keyboard.keyBufferPos.toNat = k.keyboard.keyBufferPos.toNat + 1) :
    Typed k' (line ++ [c]) := by
  refine ⟨?_, ?_, fun j hj ↦ ?_⟩
  · rw [hpos, h.pos, List.length_append, List.length_singleton]
  · rw [List.length_append, List.length_singleton]
    exact hlt
  · rw [hkeys, h.pos, KeyBuffer.charAt_put hlt]
    rw [List.length_append, List.length_singleton] at hj
    by_cases hlast : j = line.length
    · subst hlast
      simpa using hc
    · have hj' : j < line.length := by omega
      rw [if_neg hlast, List.getElem_append_left hj']
      exact h.chars j hj'

theorem erase (h : Typed k line) (hne : line ≠ [])
    (hkeys : k'.keys = k.keys.put (k.keyboard.keyBufferPos.toNat - 1) 0)
    (hpos : k'.keyboard.keyBufferPos.toNat = k.keyboard.keyBufferPos.toNat - 1) :
    Typed k' line.dropLast := by
  have hlen := List.length_pos_iff.mpr hne
  have hle := h.length_le
  refine ⟨?_, ?_, fun j hj ↦ ?_⟩
  · rw [hpos, h.pos, List.length_dropLast]
  · rw [List.length_dropLast]
    omega
  · rw [List.length_dropLast] at hj
    rw [hkeys, h.pos, KeyBuffer.charAt_put (by omega), if_neg (by omega), List.getElem_dropLast]
    exact h.chars j (by omega)

theorem spells (h : Typed k line) (hend : k.keyboard.keyBufferPos = keyBufferSize.toUInt32 ∨
    k.keys.charAt k.keyboard.keyBufferPos.toNat = 0) : KeyBuffer.Spells k.keys 0 line := by
  refine ⟨fun j hj ↦ ?_, ?_⟩
  · rw [Nat.zero_add]
    exact h.chars j hj
  · rw [Nat.zero_add]
    rcases hend with hfull | hnul
    · have hlen : line.length = keyBufferSize := by
        rw [← h.pos, hfull]
        rfl
      exact KeyBuffer.charAt_of_le hlen.ge
    · rwa [h.pos] at hnul

end Typed

/-- Either the line is being edited and every completed line has been read, or the
line completed last is in the buffer and the next one is still empty. -/
structure InStep (s : Session) : Prop where
  delivers : Delivers s.editor.completed s.reads
  editing : s.kernel.keyboard.enterPressed = false →
    s.reads.length = s.editor.completed.length ∧ Typed s.kernel s.editor.line
  waiting : s.kernel.keyboard.enterPressed = true →
    s.editor.line = [] ∧ ∃ lines line, s.editor.completed = lines ++ [line] ∧
      s.reads.length = lines.length ∧ Delivers lines s.reads ∧
      KeyBuffer.Spells s.kernel.keys 0 line

namespace InStep

variable {s s' : Session} {e : Event}

theorem start (h : FreshLine k) : InStep (Session.start k) where
  delivers := .nil
  editing _ := ⟨rfl, .nil (by rw [show (Session.start k).kernel = k from rfl, h.pos]; rfl)⟩
  waiting hw := absurd (hw.symm.trans h.enter) (by decide)

theorem congr (h : InStep s) {k' : Kernel} (hkeys : k'.keys = s.kernel.keys)
    (hpos : k'.keyboard.keyBufferPos = s.kernel.keyboard.keyBufferPos)
    (henter : k'.keyboard.enterPressed = s.kernel.keyboard.enterPressed) :
    InStep { s with kernel := k' } where
  delivers := h.delivers
  editing hk := by
    rw [henter] at hk
    obtain ⟨hlen, htyped⟩ := h.editing hk
    exact ⟨hlen, by rw [hpos]; exact htyped.pos, htyped.length_le,
      by rw [hkeys]; exact htyped.chars⟩
  waiting hk := by
    rw [henter] at hk
    rw [hkeys]
    exact h.waiting hk

theorem edited (h : InStep s) (henter : s.kernel.keyboard.enterPressed = false) {k' : Kernel}
    (henter' : k'.keyboard.enterPressed = s.kernel.keyboard.enterPressed) {line : List UInt8}
    (htyped : Typed k' line) :
    InStep ⟨k', { s.editor with line := line }, s.reads⟩ where
  delivers := h.delivers
  editing _ := ⟨(h.editing henter).1, htyped⟩
  waiting hk := absurd (hk.symm.trans (henter'.trans henter)) (by decide)

theorem char (h : InStep s) (hg : KeepsLine s.kernel (.key (.char c)))
    (hs : s.step b (.key (.char c)) = some s') : InStep s' := by
  obtain rfl := Option.some.inj hs
  by_cases hc : c = 0
  · subst hc
    exact h.congr (by rw [Kernel.pressKey, Kernel.enterChar_nul])
      (by rw [Kernel.pressKey, Kernel.enterChar_nul])
      (by rw [Kernel.pressKey, Kernel.enterChar_nul])
  · have henter : s.kernel.keyboard.enterPressed = false := by
      by_contra hne
      exact hc (hg (by simpa using hne))
    obtain ⟨hlen, htyped⟩ := h.editing henter
    have hedit : (Key.char c).edit = some (.insert c) := by simp [Key.edit, hc]
    simp only [hedit, Option.map_some, Option.getD_some, Editor.apply]
    by_cases hlt : s.editor.line.length < keyBufferSize
    · obtain ⟨hkeys, hpos, henter'⟩ := Kernel.enterChar_stored (htyped.pos ▸ hlt) hc
      rw [if_pos hlt]
      exact h.edited henter henter' (htyped.insert hlt hc hkeys hpos)
    · have hfull : keyBufferSize ≤ s.kernel.keyboard.keyBufferPos.toNat := by
        rw [htyped.pos]
        omega
      rw [if_neg hlt]
      exact h.congr (by rw [Kernel.pressKey, Kernel.enterChar_full hfull])
        (by rw [Kernel.pressKey, Kernel.enterChar_full hfull])
        (by rw [Kernel.pressKey, Kernel.enterChar_full hfull])

theorem backspace (h : InStep s) (hg : KeepsLine s.kernel (.key .backspace))
    (hs : s.step b (.key .backspace) = some s') : InStep s' := by
  obtain rfl := Option.some.inj hs
  simp only [Key.edit, Option.map_some, Option.getD_some, Editor.apply]
  cases henter : s.kernel.keyboard.enterPressed with
  | true =>
    have hzero : s.kernel.keyboard.keyBufferPos.toNat = 0 := by
      rw [hg henter]
      rfl
    have hline := (h.waiting henter).1
    rw [Kernel.pressKey, Kernel.handleBackpace_zero hzero, hline, List.dropLast_nil, ← hline]
    exact h
  | false =>
    obtain ⟨hlen, htyped⟩ := h.editing henter
    by_cases hne : s.editor.line = []
    · have hzero : s.kernel.keyboard.keyBufferPos.toNat = 0 := by
        rw [htyped.pos, hne]
        rfl
      rw [Kernel.pressKey, Kernel.handleBackpace_zero hzero, hne, List.dropLast_nil, ← hne]
      exact h
    · have hpos : 0 < s.kernel.keyboard.keyBufferPos.toNat := by
        rw [htyped.pos]
        exact List.length_pos_iff.mpr hne
      obtain ⟨hkeys, hpos', henter'⟩ := Kernel.handleBackpace_erased hpos
      exact h.edited henter henter' (htyped.erase hne hkeys hpos')

theorem ctrlL (h : InStep s) (hs : s.step b (.key .ctrlL) = some s') : InStep s' := by
  obtain rfl := Option.some.inj hs
  simp only [Key.edit, Option.map_some, Option.getD_some, Editor.apply]
  refine ⟨h.delivers, fun hk ↦ ?_, fun hk ↦ ?_⟩
  · exact ⟨(h.editing hk).1, .nil rfl⟩
  · exact ⟨rfl, (h.waiting hk).2⟩

theorem enter (h : InStep s) (hg : KeepsLine s.kernel (.key .enter))
    (hs : s.step b (.key .enter) = some s') : InStep s' := by
  obtain rfl := Option.some.inj hs
  obtain ⟨henter, hend⟩ := hg
  obtain ⟨hlen, htyped⟩ := h.editing henter
  simp only [Key.edit, Option.map_some, Option.getD_some, Editor.apply]
  refine ⟨h.delivers.complete, fun hk ↦ Bool.noConfusion (show true = false from hk), fun _ ↦ ?_⟩
  exact ⟨rfl, s.editor.completed, s.editor.line, rfl, hlen, h.delivers, htyped.spells hend⟩

theorem read (h : InStep s) {nbytes : ℤ} (hs : s.step b (.read nbytes) = some s') :
    InStep s' := by
  obtain ⟨⟨k', bytes⟩, hread, rfl⟩ := Option.map_eq_some_iff.mp hs
  cases henter : s.kernel.keyboard.enterPressed with
  | false => simp [Kernel.terminalRead_waits henter] at hread
  | true =>
    obtain ⟨k₁, hread', hkeys, hpos, henter'⟩ := Kernel.terminalRead_eq nbytes henter
    obtain ⟨rfl, rfl⟩ := Prod.mk.inj (Option.some.inj (hread'.symm.trans hread))
    obtain ⟨hline, lines, line, hcompleted, hlen, hdel, hspells⟩ := h.waiting henter
    rw [KeyBuffer.readLoop_eq hspells]
    refine ⟨?_, fun _ ↦ ⟨?_, ?_⟩, fun hk ↦ absurd (hk.symm.trans henter') (by decide)⟩
    · simp only [hcompleted]
      exact hdel.read hlen
    · simp [hcompleted, hlen]
    · simp only [hline]
      exact .nil (by rw [hpos]; rfl)

theorem step (h : InStep s) (he : e.OnLine) (hg : KeepsLine s.kernel e)
    (hs : s.step b e = some s') : InStep s' := by
  cases e with
  | key key =>
    cases key with
    | char c => exact h.char hg hs
    | backspace => exact h.backspace hg hs
    | enter => exact h.enter hg hs
    | ctrlL => exact h.ctrlL hs
    | left => exact he.elim
    | right => exact he.elim
  | output c =>
    obtain rfl := Option.some.inj hs
    exact h.congr rfl rfl rfl
  | read nbytes => exact h.read hs
  | switch term => exact he.elim

end InStep

/-- As long as nothing is typed over a line that waits to be read, and no Enter
comes in front of bytes left over from before, every read delivers the next line
of the reference editor. -/
theorem reads_deliver_lines {es : List Event} {s : Session} (hk : FreshLine k)
    (hes : ∀ e ∈ es, e.OnLine) (hr : run (Session.step b) (.start k) es = some s)
    (hg : ∀ t e, Visits (Session.step b) (.start k) es t e → KeepsLine t.kernel e) :
    Delivers s.editor.completed s.reads := by
  have hin : InStep s := by
    refine guarded_invariant (G := fun s e ↦ e.OnLine ∧ KeepsLine s.kernel e)
      (fun s e s' h hge hs ↦ h.step hge.1 hge.2 hs) (.start hk) (fun t e hv ↦ ?_) (.stop hr)
    refine ⟨hes e ?_, hg t e hv⟩
    obtain ⟨pre, post, rfl, -⟩ := hv
    exact List.mem_append_right pre List.mem_cons_self
  exact hin.delivers

theorem boots_freshLine {m : Machine} (h : Boots b m k) : FreshLine k := by
  obtain ⟨hkeyboard, -, hsaved⟩ := boots_lines h
  exact ⟨congrArg Saved.keyBuffer (hsaved _), by rw [hkeyboard]; rfl, by rw [hkeyboard]; rfl⟩

section Sample

theorem oneLine_run (hk : FreshLine k) :
    ∃ s, run (Session.step b) (.start k) [.key (.char 97), .key .enter, .read 10] = some s ∧
      ∀ t e, Visits (Session.step b) (.start k) [.key (.char 97), .key .enter, .read 10] t e →
        KeepsLine t.kernel e := by
  have hpos : k.keyboard.keyBufferPos.toNat = 0 := by
    rw [hk.pos]
    rfl
  obtain ⟨hkeys, hpos₁, henter⟩ := Kernel.enterChar_stored (k := k) (c := 97)
    (by rw [hpos]; decide) (by decide)
  have hend : (k.enterChar 97).keys.charAt (k.enterChar 97).keyboard.keyBufferPos.toNat = 0 := by
    rw [hkeys, hpos₁, hk.keys, hpos, KeyBuffer.charAt_put (by decide)]
    simp
  obtain ⟨k', hread, -⟩ := Kernel.terminalRead_eq (k := (k.enterChar 97).handleEnter) 10 rfl
  refine ⟨⟨k', ⟨[], [[97]]⟩,
    [(10, Kernel.readLoop (k.enterChar 97).handleEnter.keys (10 : ℤ).toNat 0)]⟩, ?_,
    fun t e hv ↦ ?_⟩
  · refine run_cons_eq_some.mpr ⟨⟨k.enterChar 97, ⟨[97], []⟩, []⟩, rfl, ?_⟩
    refine run_cons_eq_some.mpr ⟨⟨(k.enterChar 97).handleEnter, ⟨[], [[97]]⟩, []⟩, rfl, ?_⟩
    refine run_cons_eq_some.mpr ⟨_, ?_, rfl⟩
    rw [Session.step, hread]
    rfl
  · rcases visits_cons hv with ⟨rfl, rfl⟩ | ⟨s, hs, hv⟩
    · intro hwait
      exact Bool.noConfusion (hk.enter.symm.trans hwait)
    · obtain rfl := Option.some.inj hs
      rcases visits_cons hv with ⟨rfl, rfl⟩ | ⟨s, hs, hv⟩
      · exact ⟨henter.trans hk.enter, .inr hend⟩
      · obtain ⟨rfl, rfl⟩ := visits_singleton hv
        trivial

def typedAhead : List Event := [.key (.char 97), .key .enter, .key (.char 98), .read 10]

theorem typedAhead_run (hk : FreshLine k) :
    ∃ s, run (Session.step b) (.start k) typedAhead = some s ∧
    s.editor.completed = [ascii "a"] ∧ s.reads = [(10, ascii "ab")] := by
  have hpos : k.keyboard.keyBufferPos.toNat = 0 := by
    rw [hk.pos]
    rfl
  obtain ⟨hkeys₁, hpos₁, -⟩ := Kernel.enterChar_stored (k := k) (c := 97) (by rw [hpos]; decide)
    (by decide)
  obtain ⟨hkeys₂, -, henter₂⟩ := Kernel.enterChar_stored (k := (k.enterChar 97).handleEnter)
    (c := 98) (show (k.enterChar 97).keyboard.keyBufferPos.toNat < _ by rw [hpos₁, hpos]; decide)
    (by decide)
  obtain ⟨k', hread, -⟩ := Kernel.terminalRead_eq 10 (henter₂.trans rfl)
  have hbytes : Kernel.readLoop (((k.enterChar 97).handleEnter.enterChar 98).keys)
      (10 : ℤ).toNat 0 = ascii "ab" := by
    have hkeys : (k.enterChar 97).handleEnter.keys = (k.enterChar 97).keys := rfl
    have hpos₂ : (k.enterChar 97).handleEnter.keyboard.keyBufferPos.toNat = 1 := by
      rw [← Nat.zero_add 1, ← hpos, ← hpos₁]
      rfl
    rw [hkeys₂, hkeys, hkeys₁, hk.keys, hpos, hpos₂]
    decide +kernel
  rw [hbytes] at hread
  refine ⟨⟨k', ⟨[98], [ascii "a"]⟩, [(10, ascii "ab")]⟩, ?_, rfl, rfl⟩
  refine run_cons_eq_some.mpr ⟨⟨k.enterChar 97, ⟨[97], []⟩, []⟩, rfl, ?_⟩
  refine run_cons_eq_some.mpr ⟨⟨(k.enterChar 97).handleEnter, ⟨[], [[97]]⟩, []⟩, rfl, ?_⟩
  refine run_cons_eq_some.mpr
    ⟨⟨(k.enterChar 97).handleEnter.enterChar 98, ⟨[98], [[97]]⟩, []⟩, rfl, ?_⟩
  have hlast : Session.step b ⟨(k.enterChar 97).handleEnter.enterChar 98,
      ⟨[98], [ascii "a"]⟩, []⟩ (.read 10) = some ⟨k', ⟨[98], [ascii "a"]⟩, [(10, ascii "ab")]⟩ := by
    rw [Session.step, hread]
    rfl
  exact run_cons_eq_some.mpr ⟨_, hlast, rfl⟩

def wipedLine : List Event := [.key (.char 97), .key .ctrlL, .key .enter, .read 10]

theorem wipedLine_run (hk : FreshLine k) : ∃ s, run (Session.step b) (.start k) wipedLine = some s ∧
    s.editor.completed = [[]] ∧ s.reads = [(10, ascii "a")] := by
  have hpos : k.keyboard.keyBufferPos.toNat = 0 := by
    rw [hk.pos]
    rfl
  obtain ⟨hkeys, -, -⟩ := Kernel.enterChar_stored (k := k) (c := 97) (by rw [hpos]; decide)
    (by decide)
  obtain ⟨k', hread, -⟩ := Kernel.terminalRead_eq
    (k := (k.enterChar 97).clearScreen.handleEnter) 10 rfl
  have hbytes : Kernel.readLoop ((k.enterChar 97).clearScreen.handleEnter.keys)
      (10 : ℤ).toNat 0 = ascii "a" := by
    have hsame : (k.enterChar 97).clearScreen.handleEnter.keys = (k.enterChar 97).keys := rfl
    rw [hsame, hkeys, hk.keys, hpos]
    decide +kernel
  rw [hbytes] at hread
  refine ⟨⟨k', ⟨[], [[]]⟩, [(10, ascii "a")]⟩, ?_, rfl, rfl⟩
  have hlast : Session.step b ⟨(k.enterChar 97).clearScreen.handleEnter, ⟨[], [[]]⟩, []⟩
      (.read 10) = some ⟨k', ⟨[], [[]]⟩, [(10, ascii "a")]⟩ := by
    rw [Session.step, hread]
    rfl
  exact hlast

end Sample

theorem reads_deliver_lines_sample : ∃ k s, Boots sampleBuild sampleMachine k ∧
    run (Session.step sampleBuild) (.start k) [.key (.char 97), .key .enter, .read 10] = some s ∧
    Delivers s.editor.completed s.reads := by
  obtain ⟨k, hk⟩ := sample_boots
  obtain ⟨s, hs, hg⟩ := oneLine_run (b := sampleBuild) (boots_freshLine hk)
  refine ⟨k, s, hk, hs, reads_deliver_lines (boots_freshLine hk) ?_ hs hg⟩
  simp [Event.OnLine]

/-- A byte typed after a line's Enter is delivered with the line, and so is one
that Ctrl+L has wiped. -/
theorem reads_deliver_other_lines : ∃ k s s', Boots sampleBuild sampleMachine k ∧
    run (Session.step sampleBuild) (.start k) typedAhead = some s ∧
    ¬ Delivers s.editor.completed s.reads ∧
    run (Session.step sampleBuild) (.start k) wipedLine = some s' ∧
    ¬ Delivers s'.editor.completed s'.reads := by
  obtain ⟨k, hk⟩ := sample_boots
  obtain ⟨s, hs, hcompleted, hreads⟩ := typedAhead_run (b := sampleBuild) (boots_freshLine hk)
  obtain ⟨s', hs', hcompleted', hreads'⟩ := wipedLine_run (b := sampleBuild) (boots_freshLine hk)
  refine ⟨k, s, s', hk, hs, fun h ↦ ?_, hs', fun h ↦ ?_⟩
  · rw [hcompleted, hreads] at h
    obtain ⟨line, hline, hbytes⟩ := h 0 10 (ascii "ab") rfl
    obtain rfl := Option.some.inj hline
    exact absurd hbytes (by decide)
  · rw [hcompleted', hreads'] at h
    obtain ⟨line, hline, hbytes⟩ := h 0 10 (ascii "a") rfl
    obtain rfl := Option.some.inj hline
    exact absurd hbytes (by decide)

end ApollOS
