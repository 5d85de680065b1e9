import ApollOS.Files.DescriptorTable

namespace ApollOS

open Function Runs SlotTable

variable {b : Build} {m : Machine} {k k' k₀ : Kernel} {held : Fin maxTerminals → List ℕ}
  {a : Action} {es : List Action} {p q : ℕ} {i j : Fin maxFiles} {call : FdCall} {r : ℤ}
  {bytes : List UInt8} {t : Slots maxFiles OpenFile} {u : Use maxFiles OpenFile} {d : Devices}

/-- The interrupt line of the clock is not masked: bit 0 of `slave_mask` is clear. -/
def Devices.RtcEnabled (d : Devices) : Prop := d.slaveMask &&& 1 = 0

def IsRtc (t : Slots maxFiles OpenFile) (i : Fin maxFiles) : Prop :=
  ∃ f, t i = some f ∧ f.fileops = .rtc

theorem Devices.rtcOpen_enabled : d.rtcOpen.RtcEnabled := by
  have hmask : d.rtcOpen.slaveMask = d.slaveMask &&& 0xFE := rfl
  rw [RtcEnabled, hmask, UInt8.and_assoc]
  exact UInt8.and_zero

theorem Devices.rtcClose_disabled : ¬ d.rtcClose.RtcEnabled := by
  have hmask : d.rtcClose.slaveMask = d.slaveMask ||| 1 := rfl
  intro h
  rw [RtcEnabled, hmask] at h
  have hbit := congrArg (fun x : UInt8 ↦ x.toBitVec.getLsbD 0) h
  simp at hbit

theorem FileOps.closeOp_devices {ops : FileOps} {fd : ℤ} (hops : ops ≠ .rtc) :
    (ops.closeOp fd d).1 = d := by
  cases ops with
  | rtc => exact absurd rfl hops
  | _ => rfl

theorem FileOps.closeOp_enabled_iff {ops : FileOps} {fd : ℤ} :
    (ops.closeOp fd d).1.RtcEnabled ↔ ops ≠ .rtc ∧ d.RtcEnabled := by
  by_cases hops : ops = .rtc
  · subst hops
    simp [closeOp, Devices.rtcClose_disabled]
  · rw [closeOp_devices hops]
    simp [hops]

theorem Kernel.closeFiles_enabled_iff {files : Fin maxFiles → File} :
    (closeFiles files d).RtcEnabled ↔
      (∀ i : Fin maxFiles, 2 ≤ i.val → (files i).isOpen → (files i).fileops ≠ .rtc) ∧
        d.RtcEnabled := by
  have hlist (l : List (Fin maxFiles)) (d : Devices) :
      (l.foldl (fun d i ↦ if 2 ≤ i.val ∧ (files i).isOpen then
        ((files i).fileops.closeOp i.val d).1 else d) d).RtcEnabled ↔
      (∀ i ∈ l, 2 ≤ i.val → (files i).isOpen → (files i).fileops ≠ .rtc) ∧ d.RtcEnabled := by
    induction l generalizing d with
    | nil => simp
    | cons i l ih =>
      rw [List.foldl_cons, ih, List.forall_mem_cons]
      split_ifs with hi
      · rw [FileOps.closeOp_enabled_iff]
        tauto
      · tauto
  have h := hlist (List.finRange maxFiles) d
  simp only [List.mem_finRange, forall_const] at h
  exact h

theorem Standard.not_isRtc (hs : Standard t) (hi : i.val < 2) : ¬ IsRtc t i := by
  rintro ⟨f, hf, hops⟩
  obtain ⟨g, hg, hclosable⟩ := hs.not_closable hi
  obtain rfl := Option.some.inj (hf.symm.trans hg)
  exact hclosable (.inl hops)

theorem Fresh.not_isRtc (hs : Fresh t) : ¬ IsRtc t i := by
  rcases Nat.lt_or_ge i.val 2 with hi | hi
  · exact hs.toStandard.not_isRtc hi
  · rintro ⟨f, hf, -⟩
    simp [hs.rest i hi] at hf

namespace Kernel

theorem pressKey_devices (key : Key) : (k.pressKey key).devices = k.devices := by
  cases key with
  | char c =>
    simp only [pressKey, enterChar]
    split_ifs <;> rfl
  | backspace =>
    simp only [pressKey, handleBackpace]
    split_ifs <;> rfl
  | enter => rfl
  | ctrlL => rfl
  | left =>
    simp only [pressKey, moveCursorLeft]
    split_ifs <;> rfl
  | right =>
    simp only [pressKey, moveCursorRight]
    split_ifs <;> rfl

theorem terminalRead_devices {nbytes : ℤ} (h : k.terminalRead nbytes = some (k', bytes)) :
    k'.devices = k.devices := by
  unfold terminalRead at h
  split_ifs at h
  obtain ⟨rfl, -⟩ := Prod.mk.inj (Option.some.inj h)
  rfl

theorem launch_devices {site : CallSite} {command : Command} {o : Outcome}
    (h : k.launch b site command = some (k', o)) : k'.devices = k.devices := by
  rcases launch_cases h with ⟨v, s, -, rfl⟩ | ⟨q, mem, entry, -, -, -, rfl, -⟩
  · rfl
  · rfl

theorem begun_devices {term : Fin maxTerminals} : (k.begun term).devices = k.devices := by
  obtain ⟨console, he⟩ := k.begun_eq term
  rw [he]

theorem terminalStart_devices {term : Fin maxTerminals} {o : Outcome}
    (h : k.terminalStart b term = some (k', o)) : k'.devices = k.devices := by
  rw [terminalStart_eq] at h
  obtain ⟨o₁, hlaunch⟩ := afterCall_eq_some h
  exact (launch_devices hlaunch).trans begun_devices

theorem switchTerminal_devices {term : Fin maxTerminals} {o : Outcome}
    (h : k.switchTerminal b term = some (k', o)) : k'.devices = k.devices := by
  have hleft : (k.leftFor term).devices = k.devices := rfl
  by_cases hne : term = k.termCur
  · rw [switchTerminal, if_pos hne] at h
    obtain ⟨rfl, -⟩ := Prod.mk.inj (Option.some.inj h)
    rfl
  by_cases hfull : (k.terminal term).init = false ∧ k.canExecute = false
  · rw [switchTerminal, if_neg hne, if_pos hfull] at h
    obtain ⟨rfl, -⟩ := Prod.mk.inj (Option.some.inj h)
    rfl
  rw [switchTerminal_eq hne hfull] at h
  split_ifs at h
  · obtain ⟨o₁, hstart⟩ := afterCall_eq_some h
    exact (terminalStart_devices hstart).trans hleft
  · obtain ⟨rfl, -⟩ := Prod.mk.inj (Option.some.inj h)
    exact hleft

end Kernel

theorem Served.isRtc (h : Served b.image t call r u) (hi : IsRtc (u.apply t) i) :
    IsRtc t i ∨ ∃ filename dentry, call = .openFd filename ∧ Found b.image filename dentry .rtc ∧
      (free 2 t).Nonempty := by
  obtain ⟨f, hf, hops⟩ := hi
  cases h with
  | failed => exact .inl ⟨f, hf, hops⟩
  | @opened filename dentry ops j hfound hleast =>
    by_cases hij : i = j
    · subst hij
      obtain rfl : (⟨dentry.inodeNum, 0, ops⟩ : OpenFile) = f := by
        simpa [Use.apply] using hf
      obtain rfl := hops
      exact .inr ⟨filename, dentry, rfl, hfound, _, hleast.1⟩
    · refine .inl ⟨f, ?_, hops⟩
      simpa [Use.apply, hij] using hf
  | @closed j g hg =>
    by_cases hij : i = j
    · subst hij
      simp [Use.apply] at hf
    · refine .inl ⟨f, ?_, hops⟩
      simpa [Use.apply, hij] using hf
  | read => exact .inl ⟨f, hf, hops⟩
  | @moved j g pos nbytes _ hg =>
    by_cases hij : i = j
    · subst hij
      obtain rfl : ({ g with pos := pos } : OpenFile) = f := by
        simpa [Use.apply] using hf
      exact .inl ⟨g, hg, hops⟩
    · refine .inl ⟨f, ?_, hops⟩
      simpa [Use.apply, hij] using hf
  | written => exact .inl ⟨f, hf, hops⟩

namespace Kernel

theorem openFd_devices (filename : Option (ℕ → UInt8)) :
    (k.openFd b p filename).1.devices = k.devices ∨
      (k.openFd b p filename).1.devices.RtcEnabled := by
  unfold openFd
  split
  · exact .inl rfl
  · split
    · exact .inl rfl
    · split
      · exact .inl rfl
      · dsimp only
        split
        · exact .inl rfl
        · rename_i ops _
          cases ops with
          | rtc =>
            right
            split_ifs <;> exact Devices.rtcOpen_enabled
          | stdin => left; split_ifs <;> rfl
          | stdout => left; split_ifs <;> rfl
          | dir => left; split_ifs <;> rfl
          | file => left; split_ifs <;> rfl
          | fail => left; split_ifs <;> rfl

theorem openFd_rtc {filename : Option (ℕ → UInt8)} {dentry : Dentry}
    (hfound : Found b.image filename dentry .rtc) (hfree : (free 2 (k.opened p)).Nonempty) :
    (k.openFd b p filename).1.devices.RtcEnabled := by
  obtain ⟨name, rfl, hname, htype⟩ := hfound
  cases hslot : k.freeSlot p with
  | none => exact absurd (freeSlot_eq_none_iff.mp hslot) hfree.ne_empty
  | some i =>
    simp only [openFd, hname, hslot, htype, FileOps.openOp]
    exact Devices.rtcOpen_enabled

theorem readFd_slaveMask {fd nbytes : ℤ} {buf : Bool}
    (h : k.readFd b p fd buf nbytes = some (k', r, bytes)) :
    k'.devices.slaveMask = k.devices.slaveMask := by
  cases buf with
  | false =>
    obtain ⟨rfl, -⟩ := h
    rfl
  | true =>
    simp only [readFd, Bool.true_eq_false, if_false] at h
    split at h
    · obtain ⟨rfl, -⟩ := h
      rfl
    · split at h
      · obtain ⟨⟨k₁, line⟩, hread, he⟩ := Option.map_eq_some_iff.mp h
        obtain ⟨rfl, -⟩ := Prod.mk.inj he
        exact congrArg Devices.slaveMask (terminalRead_devices hread)
      · split_ifs at h
        obtain ⟨rfl, -⟩ := h
        rfl
      all_goals
        obtain ⟨rfl, -⟩ := Prod.mk.inj (Option.some.inj h)
        rfl

theorem writeFd_slaveMask (fd : ℤ) (buf : Option (ℕ → UInt8)) (nbytes : ℤ) :
    (k.writeFd p fd buf nbytes).1.devices.slaveMask = k.devices.slaveMask := by
  unfold writeFd
  split
  · rfl
  · split
    · rfl
    · split
      · rfl
      · unfold rtcWrite
        split_ifs <;> rfl
      all_goals rfl

theorem fdCall_rtc (h : k.fdCall b p call = some (k', r, bytes)) :
    (k'.devices.RtcEnabled ∧ ∀ fd, call ≠ .closeFd fd) ∨
    (∃ i : Fin maxFiles, call = .closeFd i.val ∧ IsRtc (k.opened p) i ∧
      ¬ k'.devices.RtcEnabled ∧ k'.opened p = update (k.opened p) i none) ∨
    (k'.devices.slaveMask = k.devices.slaveMask ∧
      (∀ i, IsRtc (k'.opened p) i → IsRtc (k.opened p) i) ∧
      ∀ i : Fin maxFiles, call = .closeFd i.val → ¬ IsRtc (k.opened p) i) := by
  obtain ⟨u, hserved, happly⟩ := fdCall_served h
  by_cases hopen : ∃ filename dentry, call = .openFd filename ∧
      Found b.image filename dentry .rtc ∧ (free 2 (k.opened p)).Nonempty
  · obtain ⟨filename, dentry, rfl, hfound, hfree⟩ := hopen
    obtain ⟨rfl, -⟩ := h
    exact .inl ⟨openFd_rtc hfound hfree, fun fd he ↦ nomatch he⟩
  have hsub (i : Fin maxFiles) (hi : IsRtc (k'.opened p) i) : IsRtc (k.opened p) i := by
    rw [happly] at hi
    exact (hserved.isRtc hi).resolve_right hopen
  cases call with
  | openFd filename =>
    obtain ⟨rfl, -⟩ := h
    rcases openFd_devices (b := b) (k := k) (p := p) filename with hsame | hon
    · exact .inr (.inr ⟨congrArg Devices.slaveMask hsame, hsub, fun i he ↦ nomatch he⟩)
    · exact .inl ⟨hon, fun fd he ↦ nomatch he⟩
  | readFd fd buf nbytes =>
    exact .inr (.inr ⟨readFd_slaveMask h, hsub, fun i he ↦ nomatch he⟩)
  | writeFd fd buf nbytes =>
    obtain ⟨rfl, -⟩ := h
    exact .inr (.inr ⟨writeFd_slaveMask fd buf nbytes, hsub, fun i he ↦ nomatch he⟩)
  | closeFd fd =>
    have hclose : k' = (k.closeFd p fd).1 := (Prod.mk.inj (Option.some.inj h)).1.symm
    cases hlook : k.lookup p fd with
    | none =>
      refine .inr (.inr ⟨?_, hsub, ?_⟩)
      · rw [hclose]
        simp only [closeFd, hlook]
      · rintro i ⟨⟩ ⟨f, hf, -⟩
        simp [lookup_open hf] at hlook
    | some i =>
      obtain ⟨rfl, hsome⟩ := lookup_eq_some hlook
      obtain ⟨f, hf⟩ := Option.isSome_iff_exists.mp hsome
      have hops := (File.entry_eq_some hf).2.2.2
      by_cases hrtc : f.fileops = .rtc
      · refine .inr (.inl ⟨i, rfl, ⟨f, hf, hrtc⟩, ?_, ?_⟩)
        · simp only [hclose, closeFd, hlook, hops, hrtc, FileOps.closeOp, if_true]
          exact Devices.rtcClose_disabled
        · simp only [hclose, closeFd, hlook, hops, hrtc, FileOps.closeOp, if_true]
          rw [opened_setFile, File.entry_setClosed]
          rfl
      · refine .inr (.inr ⟨?_, hsub, ?_⟩)
        · simp only [hclose, closeFd, hlook, hops]
          rw [FileOps.closeOp_devices hrtc]
          split_ifs <;> rfl
        · rintro j he ⟨g, hg, hg'⟩
          obtain rfl : i = j := Fin.ext (Int.ofNat_inj.mp (FdCall.closeFd.inj he))
          obtain rfl := Option.some.inj (hf.symm.trans hg)
          exact hrtc hg'

end Kernel

def HoldsRtc (k : Kernel) (p : ℕ) (i : Fin maxFiles) : Prop := k.live p ∧ IsRtc (k.opened p) i

/-- As long as somebody has the clock open, its interrupt gets through. -/
def RtcServed (k : Kernel) : Prop := (∃ p i, HoldsRtc k p i) → k.devices.RtcEnabled

/-- With an action the running process gives up a descriptor that is open on the
clock: it closes it, or it ends. -/
inductive GivesUp (k : Kernel) : Action → ℕ → Fin maxFiles → Prop
  | close {i : Fin maxFiles} : HoldsRtc k k.runningPid i →
    GivesUp k (.fdCall (.closeFd i.val)) k.runningPid i
  | exit {a : Action} {i : Fin maxFiles} : Leaves a → HoldsRtc k k.runningPid i →
    GivesUp k a k.runningPid i

/-- The clock is given up while another descriptor that is open on it remains. -/
def CutsOff (k : Kernel) (a : Action) : Prop :=
  (∃ p i, GivesUp k a p i) ∧ ∃ q j, HoldsRtc k q j ∧ ¬ GivesUp k a q j

theorem GivesUp.holds (h : GivesUp k a p i) : p = k.runningPid ∧ HoldsRtc k k.runningPid i := by
  cases h with
  | close hi => exact ⟨rfl, hi⟩
  | exit _ hi => exact ⟨rfl, hi⟩

theorem GivesUp.eq_close (h : GivesUp k (.fdCall (.closeFd i.val)) p j) : j = i := by
  generalize ha : Action.fdCall (.closeFd (i.val : ℤ)) = a at h
  cases h with
  | close =>
    have hfd := FdCall.closeFd.inj (Action.fdCall.inj ha)
    exact (Fin.ext (Int.ofNat_inj.mp hfd)).symm
  | exit hleaves =>
    subst ha
    nomatch hleaves

namespace Forest

theorem step_devices (h : Forest k held) (hl : Loadable b.image shellCommand)
    (hk : k.step b a = some k') :
    (Leaves a ∧ k'.devices = Kernel.closeFiles (k.pcb k.runningPid).files k.devices) ∨
    (∃ call r bytes, a = .fdCall call ∧ k.fdCall b k.runningPid call = some (k', r, bytes)) ∨
    (¬ Leaves a ∧ (∀ call, a ≠ .fdCall call) ∧ k'.devices = k.devices) := by
  by_cases hleaves : Leaves a
  · left
    refine ⟨hleaves, ?_⟩
    cases h.transition hl hk with
    | quiet hstays => exact absurd hleaves hstays
    | vidmap => cases hleaves
    | launch hexit =>
      rcases hleaves with ⟨⟩ | hexit'
      simp [hexit] at hexit'
    | respawn => rfl
    | resume => rfl
    | load => cases hleaves
    | start => cases hleaves
  right
  cases a with
  | console e =>
    right
    refine ⟨hleaves, fun call ↦ by rintro ⟨⟩, ?_⟩
    cases e with
    | key key =>
      obtain rfl := Option.some.inj hk
      exact Kernel.pressKey_devices key
    | output c =>
      obtain rfl := Option.some.inj hk
      rfl
    | read nbytes =>
      obtain ⟨⟨k₁, line⟩, hr, rfl⟩ := Option.map_eq_some_iff.mp hk
      exact Kernel.terminalRead_devices hr
    | switch term =>
      obtain ⟨⟨k₁, o⟩, hr, rfl⟩ := Option.map_eq_some_iff.mp hk
      exact Kernel.switchTerminal_devices hr
  | execute command =>
    right
    refine ⟨hleaves, fun call ↦ by rintro ⟨⟩, ?_⟩
    obtain ⟨⟨k₁, o⟩, hr, rfl⟩ := Option.map_eq_some_iff.mp hk
    cases command with
    | none =>
      obtain ⟨rfl, -⟩ := Prod.mk.inj (Option.some.inj hr)
      rfl
    | some command =>
      have hexit : ¬ Kernel.isExit command = true := fun hexit ↦ hleaves (.exit hexit)
      simp only [Kernel.execute_some, hexit] at hr
      exact Kernel.launch_devices hr
  | halt status => exact absurd (.halt status) hleaves
  | vidmap ptr =>
    right
    refine ⟨hleaves, fun call ↦ by rintro ⟨⟩, ?_⟩
    obtain ⟨⟨k₁, r⟩, hr, rfl⟩ := Option.map_eq_some_iff.mp hk
    rcases Kernel.vidmap_cases hr with ⟨rfl, -⟩ | ⟨mem, -, -, rfl⟩
    · rfl
    · rfl
  | fdCall call =>
    left
    obtain ⟨⟨k₁, r, bytes⟩, hr, rfl⟩ := Option.map_eq_some_iff.mp hk
    exact ⟨call, r, bytes, rfl, hr⟩

theorem holdsRtc_step (h : Forest k held) (hl : Loadable b.image shellCommand)
    (hk : k.step b a = some k') (hno : ∀ call, a ≠ .fdCall call) :
    HoldsRtc k' p i ↔ HoldsRtc k p i ∧ ¬ Ends p k a := by
  constructor
  · rintro ⟨hp', hi⟩
    rcases h.step_opened hl hk hp' with
      ⟨hfresh, -⟩ | ⟨hp, hstay, hsame | ⟨call, r, bytes, rfl, -, -⟩⟩
    · exact absurd hi hfresh.not_isRtc
    · rw [hsame] at hi
      exact ⟨⟨hp, hi⟩, hstay⟩
    · exact absurd rfl (hno call)
  · rintro ⟨⟨hp, hi⟩, hstay⟩
    have hp' := h.step_live hl hk hp hstay
    refine ⟨hp', ?_⟩
    rcases h.step_opened hl hk hp' with ⟨-, hends⟩ | ⟨-, -, hsame | ⟨call, r, bytes, rfl, -, -⟩⟩
    · exact absurd (hends hp) hstay
    · rwa [hsame]
    · exact absurd rfl (hno call)

end Forest

theorem Forest.rtcServed_ends (hf : Forest k held) (hs : Standard (k.opened k.runningPid))
    (hl : Loadable b.image shellCommand) (ho : RtcServed k) (hk : k.step b a = some k')
    (hleaves : Leaves a)
    (hdev : k'.devices = Kernel.closeFiles (k.pcb k.runningPid).files k.devices) :
    RtcServed k' ↔ ¬ CutsOff k a := by
  have hrun := hf.running_live hf.current
  have hno : ∀ call, a ≠ .fdCall call := by
    rintro call rfl
    nomatch hleaves
  by_cases hown : ∃ i, HoldsRtc k k.runningPid i
  · obtain ⟨i, hi⟩ := hown
    have hoff : ¬ k'.devices.RtcEnabled := by
      obtain ⟨-, f, hf, hops⟩ := hi
      obtain ⟨hopen, -, -, hfile⟩ := File.entry_eq_some hf
      rw [hdev, Kernel.closeFiles_enabled_iff]
      rintro ⟨hnone, -⟩
      refine hnone i ?_ hopen (hfile.trans hops)
      by_contra hlt
      exact hs.not_isRtc (not_le.mp hlt) ⟨f, hf, hops⟩
    constructor
    · rintro hserved ⟨-, q, j, hq, hkeep⟩
      refine hoff (hserved ⟨q, j, (hf.holdsRtc_step hl hk hno).mpr ⟨hq, ?_⟩⟩)
      rintro ⟨rfl, -⟩
      exact hkeep (.exit hleaves hq)
    · rintro hcut ⟨q, j, hq⟩
      obtain ⟨hq, hstay⟩ := (hf.holdsRtc_step hl hk hno).mp hq
      refine absurd ⟨⟨_, i, .exit hleaves hi⟩, q, j, hq, fun hgives ↦ ?_⟩ hcut
      exact hstay ⟨hgives.holds.1.symm, hleaves⟩
  · refine iff_of_true ?_ fun ⟨⟨q, i, hgives⟩, _⟩ ↦ hown ⟨i, hgives.holds.2⟩
    rintro ⟨p, i, hi⟩
    rw [hdev, Kernel.closeFiles_enabled_iff]
    refine ⟨fun j _ hopen hops ↦ hown ⟨j, hrun, ⟨_, if_pos hopen, hops⟩⟩, ?_⟩
    exact ho ⟨p, i, ((hf.holdsRtc_step hl hk hno).mp hi).1⟩

theorem Forest.rtcServed_call (hf : Forest k held) (ho : RtcServed k)
    (hcall : k.fdCall b k.runningPid call = some (k', r, bytes)) :
    RtcServed k' ↔ ¬ CutsOff k (.fdCall call) := by
  have hrun := hf.running_live hf.current
  have hlocal : Local {k.runningPid} k k' := .fdCall rfl hcall
  have hother (q : ℕ) (hq : q ≠ k.runningPid) (j : Fin maxFiles) :
      HoldsRtc k' q j ↔ HoldsRtc k q j := by
    rw [HoldsRtc, HoldsRtc, hlocal.live_iff, Kernel.opened_eq (hlocal.pcb q hq)]
  have hcuts (hno : ∀ i : Fin maxFiles, call = .closeFd i.val → ¬ IsRtc (k.opened k.runningPid) i) :
      ¬ CutsOff k (.fdCall call) := by
    rintro ⟨⟨q, i, hgives⟩, -⟩
    cases hgives with
    | @close i hi => exact hno i rfl hi.2
    | exit hleaves => nomatch hleaves
  rcases Kernel.fdCall_rtc hcall with ⟨hon, hno⟩ | ⟨i, rfl, hi, hoff, hopened⟩ | ⟨hdev, hsub, hno⟩
  · exact iff_of_true (fun _ ↦ hon) (hcuts fun i he ↦ absurd he (hno _))
  · constructor
    · rintro hserved ⟨-, q, j, hq, hkeep⟩
      refine hoff (hserved ⟨q, j, ?_⟩)
      by_cases hown : q = k.runningPid
      · subst hown
        have hij : j ≠ i := by
          rintro rfl
          exact hkeep (.close hq)
        refine ⟨hlocal.live_iff.mpr hq.1, ?_⟩
        rw [IsRtc, hopened, update_of_ne hij]
        exact hq.2
      · exact (hother q hown j).mpr hq
    · rintro hcut ⟨q, j, hq⟩
      refine absurd ⟨⟨_, i, .close ⟨hrun, hi⟩⟩, q, j, ?_⟩ hcut
      by_cases hown : q = k.runningPid
      · subst hown
        have hij : j ≠ i := by
          rintro rfl
          obtain ⟨-, f, hf, -⟩ := hq
          simp [hopened] at hf
        obtain ⟨hlive, hj⟩ := hq
        rw [IsRtc, hopened, update_of_ne hij] at hj
        exact ⟨⟨hlocal.live_iff.mp hlive, hj⟩, fun hgives ↦ hij hgives.eq_close⟩
      · refine ⟨(hother q hown j).mp hq, fun hgives ↦ hown hgives.holds.1⟩
  · refine iff_of_true ?_ (hcuts hno)
    rintro ⟨q, j, hq⟩
    rw [Devices.RtcEnabled, hdev]
    by_cases hown : q = k.runningPid
    · subst hown
      exact ho ⟨_, j, hrun, hsub j hq.2⟩
    · exact ho ⟨q, j, (hother q hown j).mp hq⟩

/-- Turning the clock off hurts exactly when another descriptor on it remains. -/
theorem rtcServed_step_iff (hs : StandardForest k) (hl : Loadable b.image shellCommand)
    (ho : RtcServed k) (hk : k.step b a = some k') : RtcServed k' ↔ ¬ CutsOff k a := by
  obtain ⟨⟨held, hf⟩, hstd⟩ := hs
  have hrun := hf.running_live hf.current
  rcases hf.step_devices hl hk with
    ⟨hleaves, hdev⟩ | ⟨call, r, bytes, rfl, hcall⟩ | ⟨hstay, hno, hdev⟩
  · exact hf.rtcServed_ends (hstd _ hrun) hl ho hk hleaves hdev
  · exact hf.rtcServed_call ho hcall
  · refine iff_of_true ?_ ?_
    · rintro ⟨p, i, hi⟩
      rw [hdev]
      exact ho ⟨p, i, ((hf.holdsRtc_step hl hk hno).mp hi).1⟩
    · rintro ⟨⟨p, i, hgives⟩, -⟩
      cases hgives with
      | close => exact hno _ rfl
      | exit hleaves => exact hstay hleaves

/-- In a run nobody who has the clock open is cut off from its interrupt exactly as
long as no descriptor on the clock is given up while another one is open. -/
theorem rtc_served_iff (hb : Boots b m k₀) (hr : run (Kernel.step b) k₀ es = some k) :
    (∀ u, Passes (Kernel.step b) k₀ es u → RtcServed u) ↔
      ∀ u a, Visits (Kernel.step b) k₀ es u a → ¬ CutsOff u a := by
  have hl := (boots_cases hb).1
  refine forall_passes_iff (J := StandardForest) (fun k a k' hs _ hk ↦ hs.step hl hk)
    (fun k a k' hs ho hk ↦ rtcServed_step_iff hs hl ho hk) ?_ (.boots hb) hr
  rintro ⟨p, i, hp, hi⟩
  exact absurd hi (boots_fresh hb hp).not_isRtc

section Sample

def openRtc : Action := .fdCall (.openFd (some (cstr (ascii "rtc"))))

theorem rtc_found :
    Found sampleBuild.image (some (cstr (ascii "rtc"))) (.of (ascii "rtc") 0 0) .rtc :=
  ⟨_, rfl, rfl, rfl⟩

theorem step_openFd {filename : Option (ℕ → UInt8)} {dentry : Dentry} {ops : FileOps}
    (hfound : Found b.image filename dentry ops) (hlive : k.live k.runningPid)
    (hi : IsLeast (free 2 (k.opened k.runningPid)) i) : ∃ k',
      k.step b (.fdCall (.openFd filename)) = some k' ∧ k'.runningPid = k.runningPid ∧
      k'.live k.runningPid ∧
      k'.opened k.runningPid =
        update (k.opened k.runningPid) i (some ⟨dentry.inodeNum, 0, ops⟩) := by
  have hcall : k.fdCall b k.runningPid (.openFd filename) =
      some ((k.openFd b k.runningPid filename).1, (k.openFd b k.runningPid filename).2, []) := rfl
  have hlocal := Local.fdCall (S := {k.runningPid}) rfl hcall
  exact ⟨_, rfl, hlocal.runningPid_eq, hlocal.live_iff.mpr hlive,
    (Kernel.openFd_found hfound hi).2⟩

theorem sample_openRtc : ∃ k₀ k₁ k₂, Boots sampleBuild sampleMachine k₀ ∧
    k₀.step sampleBuild openRtc = some k₁ ∧ k₁.step sampleBuild openRtc = some k₂ ∧
    HoldsRtc k₂ k₂.runningPid 2 ∧ HoldsRtc k₂ k₂.runningPid 3 := by
  obtain ⟨k₀, hb⟩ := sample_boots
  have hf := boots_forest hb
  have hlive := hf.running_live hf.current
  have hfresh := boots_fresh hb hlive
  have hleast : IsLeast (free 2 (k₀.opened k₀.runningPid)) 2 :=
    ⟨⟨le_rfl, hfresh.rest 2 le_rfl⟩, fun _ hj ↦ hj.1⟩
  obtain ⟨k₁, hstep, hrun, hlive₁, hopened⟩ := step_openFd rtc_found hlive hleast
  rw [← hrun] at hlive₁ hopened
  have hleast₁ : IsLeast (free 2 (k₁.opened k₁.runningPid)) 3 := by
    rw [hopened, hrun]
    refine ⟨⟨by decide, ?_⟩, fun j ⟨hge, hnone⟩ ↦ ?_⟩
    · rw [update_of_ne (by decide)]
      exact hfresh.rest 3 (by decide)
    · have hne : j ≠ 2 := by
        rintro rfl
        simp at hnone
      have hval : j.val ≠ 2 := fun h ↦ hne (Fin.ext h)
      exact Nat.lt_of_le_of_ne hge hval.symm
  obtain ⟨k₂, hstep₁, hrun₁, hlive₂, hopened₁⟩ := step_openFd rtc_found hlive₁ hleast₁
  rw [← hrun₁] at hlive₂ hopened₁
  have hinode : (Dentry.of (ascii "rtc") 0 0).inodeNum = 0 := by decide
  rw [hinode] at hopened hopened₁
  refine ⟨k₀, k₁, k₂, hb, hstep, hstep₁, ⟨hlive₂, ⟨0, 0, .rtc⟩, ?_, rfl⟩,
    ⟨hlive₂, ⟨0, 0, .rtc⟩, ?_, rfl⟩⟩
  · rw [hopened₁, update_of_ne (by decide), hrun₁, hopened, update_self]
  · rw [hopened₁, update_self]

/-- The shell opens the clock twice and closes the first of the two descriptors. -/
def openTwiceCloseOne : List Action := [openRtc, openRtc, .fdCall (.closeFd 2)]

end Sample

/-- The second descriptor stays open, but the interrupt of the clock is off. -/
theorem rtc_cut_off : ∃ k₀ k, Boots sampleBuild sampleMachine k₀ ∧
    run (Kernel.step sampleBuild) k₀ openTwiceCloseOne = some k ∧
    HoldsRtc k k.runningPid 3 ∧ ¬ k.devices.RtcEnabled := by
  obtain ⟨k₀, k₁, k₂, hb, hstep, hstep₁, htwo, hthree⟩ := sample_openRtc
  have hcall : k₂.fdCall sampleBuild k₂.runningPid (.closeFd (2 : Fin maxFiles).val) =
      some ((k₂.closeFd k₂.runningPid 2).1, (k₂.closeFd k₂.runningPid 2).2, []) := rfl
  have hlocal := Local.fdCall (S := {k₂.runningPid}) rfl hcall
  refine ⟨k₀, (k₂.closeFd k₂.runningPid 2).1, hb, ?_, ?_⟩
  · exact run_cons_eq_some.mpr ⟨k₁, hstep, run_cons_eq_some.mpr ⟨k₂, hstep₁, rfl⟩⟩
  · rcases Kernel.fdCall_rtc hcall with ⟨-, hno⟩ | ⟨i, he, -, hoff, hopened⟩ | ⟨-, -, hno⟩
    · exact absurd rfl (hno _)
    · obtain rfl : 2 = i := Fin.ext (Int.ofNat_inj.mp (FdCall.closeFd.inj he))
      refine ⟨?_, hoff⟩
      rw [hlocal.runningPid_eq]
      refine ⟨hlocal.live_iff.mpr hthree.1, ?_⟩
      rw [IsRtc, hopened, update_of_ne (by decide)]
      exact hthree.2
    · exact absurd htwo.2 (hno 2 rfl)

theorem rtc_served_iff_sample : ∃ k₀ k, Boots sampleBuild sampleMachine k₀ ∧
    run (Kernel.step sampleBuild) k₀ [openRtc, openRtc] = some k ∧
    ∀ u, Passes (Kernel.step sampleBuild) k₀ [openRtc, openRtc] u → RtcServed u := by
  obtain ⟨k₀, k₁, k₂, hb, hstep, hstep₁, -⟩ := sample_openRtc
  have hr : run (Kernel.step sampleBuild) k₀ [openRtc, openRtc] = some k₂ :=
    run_cons_eq_some.mpr ⟨k₁, hstep, run_cons_eq_some.mpr ⟨k₂, hstep₁, rfl⟩⟩
  refine ⟨k₀, k₂, hb, hr, (rtc_served_iff hb hr).mpr fun u a hv hcuts ↦ ?_⟩
  have hopens : a = openRtc := by simpa using hv.mem
  obtain ⟨⟨p, i, hgives⟩, -⟩ := hcuts
  cases hgives with
  | close => cases hopens
  | exit hleaves =>
    subst hopens
    cases hleaves

end ApollOS
