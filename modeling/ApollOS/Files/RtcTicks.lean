import ApollOS.Foundation.Latch
import ApollOS.Files.RtcSharing

namespace ApollOS

open Function Runs SlotTable

/-- What changes the state while programs run: an action, or an interrupt of the clock. -/
inductive Moment
  | act (a : Action)
  | tick

def Devices.rtcHandler (d : Devices) : Devices := { d with intOccur := true }

/-- The clock interrupts only while its line is not masked. -/
def Kernel.elapse (b : Build) (k : Kernel) (o : Moment) : Option Kernel :=
  match o with
  | .act a => k.step b a
  | .tick =>
    if k.devices.slaveMask &&& 1 = 0 then some { k with devices := k.devices.rtcHandler } else none

variable {b : Build} {m : Machine} {k k' k₀ : Kernel} {held : Fin maxTerminals → List ℕ}
  {a : Action} {o : Moment} {os : List Moment} {p : ℕ} {i : Fin maxFiles} {call : FdCall}
  {r nbytes : ℤ} {bytes : List UInt8} {files : Fin maxFiles → File} {d : Devices}

inductive Awaits (k : Kernel) : Action → Prop
  | read {i : Fin maxFiles} {nbytes : ℤ} : IsRtc (k.opened k.runningPid) i →
    Awaits k (.fdCall (.readFd i.val true nbytes))

inductive OpensRtc (b : Build) (k : Kernel) : Action → Prop
  | opened {filename : Option (ℕ → UInt8)} {dentry : Dentry} : Found b.image filename dentry .rtc →
    (free 2 (k.opened k.runningPid)).Nonempty → OpensRtc b k (.fdCall (.openFd filename))

/-- What makes the kernel forget the last interrupt of the clock. -/
inductive Forgets (b : Build) (k : Kernel) : Moment → Prop
  | read {a : Action} : Awaits k a → Forgets b k (.act a)
  | opened {a : Action} : OpensRtc b k a → Forgets b k (.act a)

section Latched

theorem FileOps.closeOp_intOccur (ops : FileOps) (fd : ℤ) (d : Devices) :
    (ops.closeOp fd d).1.intOccur = d.intOccur := by
  cases ops <;> rfl

theorem Kernel.closeFiles_intOccur : (closeFiles files d).intOccur = d.intOccur := by
  have hlist (l : List (Fin maxFiles)) (d : Devices) :
      (l.foldl (fun d i ↦ if 2 ≤ i.val ∧ (files i).isOpen then
        ((files i).fileops.closeOp i.val d).1 else d) d).intOccur = d.intOccur := by
    induction l generalizing d with
    | nil => rfl
    | cons i l ih =>
      rw [List.foldl_cons, ih]
      split_ifs
      · exact FileOps.closeOp_intOccur _ _ d
      · rfl
  exact hlist _ d

namespace Kernel

theorem openFd_clock (filename : Option (ℕ → UInt8)) :
    ((k.openFd b p filename).1.devices = k.devices ∧
      ¬ ∃ dentry, Found b.image filename dentry .rtc ∧ (free 2 (k.opened p)).Nonempty) ∨
    ((k.openFd b p filename).1.devices = k.devices.rtcOpen ∧
      ∃ dentry, Found b.image filename dentry .rtc ∧ (free 2 (k.opened p)).Nonempty) := by
  by_cases hrtc : ∃ dentry, Found b.image filename dentry .rtc ∧ (free 2 (k.opened p)).Nonempty
  · obtain ⟨dentry, ⟨name, rfl, hname, htype⟩, hfree⟩ := hrtc
    refine .inr ⟨?_, dentry, ⟨name, rfl, hname, htype⟩, hfree⟩
    cases hslot : k.freeSlot p with
    | none => exact absurd (freeSlot_eq_none_iff.mp hslot) hfree.ne_empty
    | some i =>
      simp only [openFd, hname, hslot, htype, FileOps.openOp]
      rfl
  refine .inl ⟨?_, hrtc⟩
  cases filename with
  | none => rfl
  | some name =>
    cases hname : readDentryByName b.image name with
    | none => simp only [openFd, hname]
    | some dentry =>
      cases hslot : k.freeSlot p with
      | none => simp only [openFd, hname, hslot]
      | some i =>
        cases htype : FileOps.ofType dentry.fileType with
        | none =>
          simp only [openFd, hname, hslot, htype]
          rfl
        | some ops =>
          have hops : ops ≠ .rtc := by
            rintro rfl
            exact hrtc ⟨dentry, ⟨name, rfl, hname, htype⟩, i, (freeSlot_eq_some_iff.mp hslot).1⟩
          have hdev : (ops.openOp b.image name k.devices).1 = k.devices := by
            cases ops with
            | rtc => exact absurd rfl hops
            | _ => rfl
          simp only [openFd, hname, hslot, htype, hdev]
          split_ifs <;> rfl

theorem closeFd_intOccur (fd : ℤ) :
    (k.closeFd p fd).1.devices.intOccur = k.devices.intOccur := by
  unfold closeFd
  split
  · rfl
  · rename_i i _
    have hkept := FileOps.closeOp_intOccur ((k.pcb p).files i).fileops fd k.devices
    dsimp only
    split_ifs <;> exact hkept

theorem writeFd_intOccur (fd : ℤ) (buf : Option (ℕ → UInt8)) (nbytes : ℤ) :
    (k.writeFd p fd buf nbytes).1.devices.intOccur = k.devices.intOccur := by
  unfold writeFd
  split
  · rfl
  · split
    · rfl
    · split
      · rfl
      · unfold rtcWrite
        split_ifs <;> rfl
      all_goals rfl

theorem readFd_rtc_iff (hi : IsRtc (k.opened p) i) :
    (∃ k' r bytes, k.readFd b p i.val true nbytes = some (k', r, bytes)) ↔
      k.devices.intOccur = true := by
  obtain ⟨f, hf, hops⟩ := hi
  have hfile : ((k.pcb p).files i).fileops = .rtc := (File.entry_eq_some hf).2.2.2.trans hops
  simp only [readFd, lookup_open hf, hfile, Bool.true_eq_false, if_false]
  by_cases hset : k.devices.intOccur = true
  · rw [if_pos hset]
    exact iff_of_true ⟨_, _, _, rfl⟩ hset
  · rw [if_neg hset]
    refine iff_of_false ?_ hset
    rintro ⟨k', r, bytes, h⟩
    cases h

theorem readFd_intOccur {fd : ℤ} {buf : Bool}
    (h : k.readFd b p fd buf nbytes = some (k', r, bytes)) :
    (k'.devices.intOccur = k.devices.intOccur ∧
      ¬ ∃ i : Fin maxFiles, fd = i.val ∧ buf = true ∧ IsRtc (k.opened p) i) ∨
    (k'.devices.intOccur = false ∧
      ∃ i : Fin maxFiles, fd = i.val ∧ buf = true ∧ IsRtc (k.opened p) i) := by
  by_cases hrtc : ∃ i : Fin maxFiles, fd = i.val ∧ buf = true ∧ IsRtc (k.opened p) i
  · refine .inr ⟨?_, hrtc⟩
    obtain ⟨i, rfl, rfl, f, hf, hops⟩ := hrtc
    have hfile : ((k.pcb p).files i).fileops = .rtc := (File.entry_eq_some hf).2.2.2.trans hops
    simp only [readFd, lookup_open hf, hfile, Bool.true_eq_false, if_false] at h
    split_ifs at h
    obtain ⟨rfl, -⟩ := Prod.mk.inj (Option.some.inj h)
    rfl
  refine .inl ⟨?_, hrtc⟩
  cases buf with
  | false =>
    obtain ⟨rfl, -⟩ := h
    rfl
  | true =>
    simp only [readFd, Bool.true_eq_false, if_false] at h
    cases hlook : k.lookup p fd with
    | none =>
      rw [hlook] at h
      obtain ⟨rfl, -⟩ := h
      rfl
    | some i =>
      obtain ⟨rfl, hsome⟩ := lookup_eq_some hlook
      obtain ⟨f, hf⟩ := Option.isSome_iff_exists.mp hsome
      have hops := (File.entry_eq_some hf).2.2.2
      cases hfile : ((k.pcb p).files i).fileops with
      | rtc => exact absurd ⟨i, rfl, rfl, f, hf, hops.symm.trans hfile⟩ hrtc
      | stdin =>
        simp only [hlook, hfile] at h
        obtain ⟨⟨k₁, line⟩, hread, he⟩ := Option.map_eq_some_iff.mp h
        obtain ⟨rfl, -⟩ := Prod.mk.inj he
        exact congrArg Devices.intOccur (terminalRead_devices hread)
      | _ =>
        simp only [hlook, hfile] at h
        obtain ⟨rfl, -⟩ := Prod.mk.inj (Option.some.inj h)
        rfl

end Kernel

end Latched

theorem forgets_other (hno : ∀ call, a ≠ .fdCall call) : ¬ Forgets b k (.act a) := by
  rintro (⟨⟨-⟩⟩ | ⟨⟨-⟩⟩)
  · exact hno _ rfl
  · exact hno _ rfl

theorem fdCall_intOccur (h : k.fdCall b k.runningPid call = some (k', r, bytes)) :
    k'.devices.intOccur = true ↔
      k.devices.intOccur = true ∧ ¬ Forgets b k (.act (.fdCall call)) := by
  cases call with
  | openFd filename =>
    obtain rfl : (k.openFd b k.runningPid filename).1 = k' :=
      (Prod.mk.inj (Option.some.inj h)).1
    rcases k.openFd_clock (b := b) (p := k.runningPid) filename with
      ⟨hsame, hno⟩ | ⟨hopen, dentry, hfound, hfree⟩
    · have hkeeps : ¬ Forgets b k (.act (.fdCall (.openFd filename))) := by
        rintro (⟨⟨-⟩⟩ | ⟨⟨hfound, hfree⟩⟩)
        exact hno ⟨_, hfound, hfree⟩
      rw [hsame, and_iff_left hkeeps]
    · have hoff : k.devices.rtcOpen.intOccur = false := rfl
      rw [hopen, hoff]
      exact iff_of_false Bool.false_ne_true fun ⟨_, hkeeps⟩ ↦
        hkeeps (.opened (.opened hfound hfree))
  | closeFd fd =>
    obtain rfl : (k.closeFd k.runningPid fd).1 = k' := (Prod.mk.inj (Option.some.inj h)).1
    have hkeeps : ¬ Forgets b k (.act (.fdCall (.closeFd fd))) := by
      rintro (⟨⟨-⟩⟩ | ⟨⟨-⟩⟩)
    rw [Kernel.closeFd_intOccur, and_iff_left hkeeps]
  | readFd fd buf nbytes =>
    rcases Kernel.readFd_intOccur h with ⟨hsame, hno⟩ | ⟨hoff, i, rfl, rfl, hi⟩
    · have hkeeps : ¬ Forgets b k (.act (.fdCall (.readFd fd buf nbytes))) := by
        rintro (⟨⟨hi⟩⟩ | ⟨⟨-⟩⟩)
        exact hno ⟨_, rfl, rfl, hi⟩
      rw [hsame, and_iff_left hkeeps]
    · rw [hoff]
      exact iff_of_false Bool.false_ne_true fun ⟨_, hkeeps⟩ ↦ hkeeps (.read (.read hi))
  | writeFd fd buf nbytes =>
    obtain rfl : (k.writeFd k.runningPid fd buf nbytes).1 = k' :=
      (Prod.mk.inj (Option.some.inj h)).1
    have hkeeps : ¬ Forgets b k (.act (.fdCall (.writeFd fd buf nbytes))) := by
      rintro (⟨⟨-⟩⟩ | ⟨⟨-⟩⟩)
    rw [Kernel.writeFd_intOccur, and_iff_left hkeeps]

namespace Forest

/-- The flag is set by an interrupt, and cleared only where the clock is read or opened. -/
theorem elapse_intOccur (h : Forest k held) (hl : Loadable b.image shellCommand)
    (hk : k.elapse b o = some k') :
    k'.devices.intOccur = true ↔
      o = .tick ∨ k.devices.intOccur = true ∧ ¬ Forgets b k o := by
  cases o with
  | tick =>
    simp only [Kernel.elapse] at hk
    split_ifs at hk
    obtain rfl := Option.some.inj hk
    exact iff_of_true rfl (.inl rfl)
  | act a =>
    have hact : Moment.act a ≠ .tick := by
      rintro ⟨⟩
    rw [or_iff_right hact]
    rcases h.step_devices hl hk with
      ⟨hleaves, hdev⟩ | ⟨call, r, bytes, rfl, hcall⟩ | ⟨-, hno, hdev⟩
    · have hno : ∀ call, a ≠ .fdCall call := by
        rintro call rfl
        nomatch hleaves
      rw [hdev, Kernel.closeFiles_intOccur, and_iff_left (forgets_other hno)]
    · exact fdCall_intOccur hcall
    · rw [hdev, and_iff_left (forgets_other hno)]

theorem elapse (h : Forest k held) (hl : Loadable b.image shellCommand)
    (hk : k.elapse b o = some k') : ∃ held', Forest k' held' := by
  cases o with
  | tick =>
    simp only [Kernel.elapse] at hk
    split_ifs at hk
    obtain rfl := Option.some.inj hk
    exact ⟨held, h.congr (.io k.console k.keyboard k.devices.rtcHandler)⟩
  | act a =>
    obtain ⟨held', hf, -⟩ := h.step hl hk
    exact ⟨held', hf⟩

end Forest

section Runs

theorem holdsRtc_elapse (hf : Forest k held) (hl : Loadable b.image shellCommand)
    (hk : k.elapse b o = some k') (hno : ∀ a, o = .act a → ¬ OpensRtc b k a)
    (hi : HoldsRtc k' p i) : HoldsRtc k p i := by
  cases o with
  | tick =>
    simp only [Kernel.elapse] at hk
    split_ifs at hk
    obtain rfl := Option.some.inj hk
    exact hi
  | act a =>
    by_cases hcall : ∃ call, a = .fdCall call
    · obtain ⟨call, rfl⟩ := hcall
      obtain ⟨⟨k₁, r, bytes⟩, hcall, rfl⟩ := Option.map_eq_some_iff.mp hk
      have hlocal : Local {k.runningPid} k k₁ := .fdCall rfl hcall
      refine ⟨hlocal.live_iff.mp hi.1, ?_⟩
      by_cases hown : p = k.runningPid
      · subst hown
        obtain ⟨u, hserved, happly⟩ := Kernel.fdCall_served hcall
        have hrtc := hi.2
        rw [happly] at hrtc
        rcases hserved.isRtc hrtc with hrtc | ⟨filename, dentry, rfl, hfound, hfree⟩
        · exact hrtc
        · exact absurd (.opened hfound hfree) (hno _ rfl)
      · have hrtc := hi.2
        rwa [Kernel.opened_eq (hlocal.pcb p hown)] at hrtc
    · exact ((hf.holdsRtc_step hl hk fun call he ↦ hcall ⟨call, he⟩).mp hi).1

def Grown (k : Kernel) : Prop := ∃ held, Forest k held

theorem Grown.elapse (h : Grown k) (hl : Loadable b.image shellCommand)
    (hk : k.elapse b o = some k') : Grown k' := by
  obtain ⟨held, hf⟩ := h
  exact hf.elapse hl hk

theorem boots_grown (hb : Boots b m k₀) (hr : run (Kernel.elapse b) k₀ os = some k) : Grown k :=
  invariant (fun _ _ _ h hk ↦ h.elapse (boots_cases hb).1 hk) ⟨_, boots_forest hb⟩ hr

theorem opensRtc_of_holdsRtc (hb : Boots b m k₀) (hr : run (Kernel.elapse b) k₀ os = some k)
    (hi : HoldsRtc k p i) : ∃ u a, Visits (Kernel.elapse b) k₀ os u (.act a) ∧ OpensRtc b u a := by
  by_contra hnever
  push Not at hnever
  have hnone : Grown k ∧ ∀ p i, ¬ HoldsRtc k p i := by
    refine guarded_invariant (I := fun k ↦ Grown k ∧ ∀ p i, ¬ HoldsRtc k p i)
      (G := fun k o ↦ ∀ a, o = .act a → ¬ OpensRtc b k a) ?_ ?_ ?_ (Passes.stop hr)
    · rintro k o k' ⟨hg, hnone⟩ hno hk
      refine ⟨hg.elapse (boots_cases hb).1 hk, fun p i hi ↦ ?_⟩
      obtain ⟨held, hf⟩ := hg
      exact hnone p i (holdsRtc_elapse hf (boots_cases hb).1 hk hno hi)
    · exact ⟨⟨_, boots_forest hb⟩, fun p i hi ↦ (boots_fresh hb hi.1).not_isRtc hi.2⟩
    · rintro u o hv a rfl
      exact hnever u a hv
  exact hnone.2 p i hi

end Runs

/-- In every run a read of the clock goes through exactly if an interrupt has come since anybody
last read or opened the clock. -/
theorem rtc_read_iff (hb : Boots b m k₀) (hr : run (Kernel.elapse b) k₀ os = some k)
    (hi : IsRtc (k.opened k.runningPid) i) (nbytes : ℤ) :
    (∃ k', k.step b (.fdCall (.readFd i.val true nbytes)) = some k') ↔
      SetSince (Kernel.elapse b) (fun _ o ↦ o = .tick) (Forgets b) k₀ os := by
  have hl := (boots_cases hb).1
  obtain ⟨held, hf⟩ := boots_grown hb hr
  obtain ⟨u, a, hv, hopens⟩ := opensRtc_of_holdsRtc hb hr ⟨hf.running_live hf.current, hi⟩
  have hlatched : ∀ k o k', Grown k → k.elapse b o = some k' →
      (k'.devices.intOccur = true ↔
        o = .tick ∨ k.devices.intOccur = true ∧ ¬ Forgets b k o) := by
    rintro k o k' ⟨held, hf⟩ hk
    exact hf.elapse_intOccur hl hk
  have hlatch := latch_iff (fun _ _ _ h hk ↦ h.elapse hl hk) hlatched ⟨_, boots_forest hb⟩ hr
  have hcleared : ¬ (k₀.devices.intOccur = true ∧
      ∀ v f, Visits (Kernel.elapse b) k₀ os v f → ¬ Forgets b v f) :=
    fun ⟨_, hnone⟩ ↦ hnone u _ hv (.opened hopens)
  rw [or_iff_right hcleared] at hlatch
  have hread : (∃ k' r bytes, k.readFd b k.runningPid i.val true nbytes = some (k', r, bytes)) ↔
      k.devices.intOccur = true := Kernel.readFd_rtc_iff hi
  rw [← hlatch, ← hread]
  constructor
  · rintro ⟨k', hk⟩
    obtain ⟨⟨k₁, r, bytes⟩, hcall, -⟩ := Option.map_eq_some_iff.mp hk
    exact ⟨k₁, r, bytes, hcall⟩
  · rintro ⟨k', r, bytes, hcall⟩
    exact ⟨k', Option.map_eq_some_iff.mpr ⟨(k', r, bytes), hcall, rfl⟩⟩

section Sample

theorem openRtc_devices (hfree : (free 2 (k.opened k.runningPid)).Nonempty)
    (hk : k.step sampleBuild openRtc = some k') : k'.devices = k.devices.rtcOpen := by
  obtain rfl : (k.openFd sampleBuild k.runningPid (some (cstr (ascii "rtc")))).1 = k' :=
    Option.some.inj hk
  rcases k.openFd_clock (b := sampleBuild) (p := k.runningPid) (some (cstr (ascii "rtc"))) with
    ⟨-, hno⟩ | ⟨hopen, -⟩
  · exact absurd ⟨_, rtc_found, hfree⟩ hno
  · exact hopen

theorem sample_clock : ∃ k₀ k, Boots sampleBuild sampleMachine k₀ ∧
    run (Kernel.elapse sampleBuild) k₀ [.act openRtc, .act openRtc] = some k ∧
    k.devices.RtcEnabled ∧ k.devices.intOccur = false ∧ IsRtc (k.opened k.runningPid) 2 ∧
    IsRtc (k.opened k.runningPid) 3 := by
  obtain ⟨k₀, k₁, k₂, hb, hstep, hstep₁, htwo, hthree⟩ := sample_openRtc
  have hf := boots_forest hb
  have hlive := hf.running_live hf.current
  have hfresh := boots_fresh hb hlive
  have hleast : IsLeast (free 2 (k₀.opened k₀.runningPid)) 2 :=
    ⟨⟨le_rfl, hfresh.rest 2 le_rfl⟩, fun _ hj ↦ hj.1⟩
  obtain ⟨k₁', hstep', hrun, -, hopened⟩ := step_openFd rtc_found hlive hleast
  obtain rfl := Option.some.inj (hstep.symm.trans hstep')
  have hfree : (free 2 (k₁.opened k₁.runningPid)).Nonempty := by
    refine ⟨4, by decide, ?_⟩
    rw [hrun, hopened, update_of_ne (by decide)]
    exact hfresh.rest 4 (by decide)
  have hdev := openRtc_devices hfree hstep₁
  refine ⟨k₀, k₂, hb, ?_, ?_, ?_, htwo.2, hthree.2⟩
  · exact run_cons_eq_some.mpr ⟨k₁, hstep, run_cons_eq_some.mpr ⟨k₂, hstep₁, rfl⟩⟩
  · rw [hdev]
    exact Devices.rtcOpen_enabled
  · rw [hdev]
    rfl

end Sample

/-- The shell opens the clock twice, the clock interrupts, and a read goes through. -/
theorem rtc_read_iff_sample : ∃ k₀ k k', Boots sampleBuild sampleMachine k₀ ∧
    run (Kernel.elapse sampleBuild) k₀ [.act openRtc, .act openRtc, .tick] = some k ∧
    k.step sampleBuild (.fdCall (.readFd (2 : Fin maxFiles).val true 4)) = some k' := by
  obtain ⟨k₀, k, hb, hr, hon, -, hi, -⟩ := sample_clock
  have htick : k.elapse sampleBuild .tick = some { k with devices := k.devices.rtcHandler } :=
    if_pos hon
  have hr' : run (Kernel.elapse sampleBuild) k₀ [.act openRtc, .act openRtc, .tick] =
      some { k with devices := k.devices.rtcHandler } := by
    have hlast : [Moment.act openRtc, .act openRtc, .tick] =
      [.act openRtc, .act openRtc] ++ [.tick] := rfl
    rw [hlast, run_append, hr, Option.bind_some]
    exact run_cons_eq_some.mpr ⟨_, htick, rfl⟩
  obtain ⟨k', hread⟩ := (rtc_read_iff hb hr' hi 4).mpr
    ⟨_, .tick, [], k, _, rfl, hr, rfl, htick, fun v f hv ↦ (visits_nil hv).elim⟩
  exact ⟨k₀, _, k', hb, hr', hread⟩

/-- The line of the clock is masked, and no interrupt is left over. -/
structure Silent (k : Kernel) : Prop where
  masked : ¬ k.devices.RtcEnabled
  nothing : k.devices.intOccur = false

theorem Silent.elapse (hs : Silent k) (hf : Forest k held) (hl : Loadable b.image shellCommand)
    (hk : k.elapse b o = some k') (hno : ∀ a, o = .act a → ¬ OpensRtc b k a) : Silent k' := by
  have hmasked : ¬ k'.devices.RtcEnabled := by
    cases o with
    | tick =>
      simp only [Kernel.elapse] at hk
      split_ifs at hk with hon
      exact absurd hon hs.masked
    | act a =>
      rcases hf.step_devices hl hk with
        ⟨-, hdev⟩ | ⟨call, r, bytes, rfl, hcall⟩ | ⟨-, -, hdev⟩
      · rw [hdev, Kernel.closeFiles_enabled_iff]
        exact fun ⟨_, hon⟩ ↦ hs.masked hon
      · cases call with
        | openFd filename =>
          obtain rfl : (k.openFd b k.runningPid filename).1 = k' :=
            (Prod.mk.inj (Option.some.inj hcall)).1
          rcases k.openFd_clock (b := b) (p := k.runningPid) filename with
            ⟨hsame, -⟩ | ⟨-, dentry, hfound, hfree⟩
          · rw [hsame]
            exact hs.masked
          · exact absurd (.opened hfound hfree) (hno _ rfl)
        | closeFd fd =>
          rcases Kernel.fdCall_rtc hcall with ⟨-, hclose⟩ | ⟨_, -, -, hoff, -⟩ | ⟨hmask, -⟩
          · exact absurd rfl (hclose fd)
          · exact hoff
          · rw [Devices.RtcEnabled, hmask]
            exact hs.masked
        | readFd fd buf nbytes =>
          rw [Devices.RtcEnabled, Kernel.readFd_slaveMask hcall]
          exact hs.masked
        | writeFd fd buf nbytes =>
          obtain rfl : (k.writeFd k.runningPid fd buf nbytes).1 = k' :=
            (Prod.mk.inj (Option.some.inj hcall)).1
          rw [Devices.RtcEnabled, Kernel.writeFd_slaveMask]
          exact hs.masked
      · rw [hdev]
        exact hs.masked
  refine ⟨hmasked, ?_⟩
  by_contra hset
  rcases (hf.elapse_intOccur hl hk).mp (Bool.eq_true_of_not_eq_false hset) with rfl | ⟨hset', -⟩
  · simp only [Kernel.elapse] at hk
    split_ifs at hk with hon
    exact hs.masked hon
  · exact absurd (hs.nothing.symm.trans hset') Bool.false_ne_true

/-- Once the clock is masked, whoever has it open waits in vain until somebody opens it again. -/
theorem rtc_starves {os' : List Moment} (hb : Boots b m k₀)
    (hr : run (Kernel.elapse b) k₀ os = some k) (hs : Silent k)
    (hr' : run (Kernel.elapse b) k os' = some k')
    (hno : ∀ v a, Visits (Kernel.elapse b) k os' v (.act a) → ¬ OpensRtc b v a)
    (hi : IsRtc (k'.opened k'.runningPid) i) (nbytes : ℤ) :
    k'.step b (.fdCall (.readFd i.val true nbytes)) = none := by
  have hl := (boots_cases hb).1
  have hend : Grown k' ∧ Silent k' := by
    refine guarded_invariant (I := fun k ↦ Grown k ∧ Silent k)
      (G := fun k o ↦ ∀ a, o = .act a → ¬ OpensRtc b k a) ?_ ⟨boots_grown hb hr, hs⟩ ?_
      (Passes.stop hr')
    · rintro k o k' ⟨hg, hs⟩ hno hk
      refine ⟨hg.elapse hl hk, ?_⟩
      obtain ⟨held, hf⟩ := hg
      exact hs.elapse hf hl hk hno
    · rintro u o hv a rfl
      exact hno u a hv
  rw [Option.eq_none_iff_forall_ne_some]
  intro k'' hk
  obtain ⟨⟨k₁, r, bytes⟩, hcall, -⟩ := Option.map_eq_some_iff.mp hk
  have hset := (Kernel.readFd_rtc_iff hi).mp ⟨k₁, r, bytes, hcall⟩
  exact absurd (hend.2.nothing.symm.trans hset) Bool.false_ne_true

/-- The shell opens the clock twice and closes one descriptor; a read of the other one hangs. -/
theorem rtc_starves_sample : ∃ k₀ k, Boots sampleBuild sampleMachine k₀ ∧
    run (Kernel.elapse sampleBuild) k₀ (openTwiceCloseOne.map .act) = some k ∧
    k.step sampleBuild (.fdCall (.readFd (3 : Fin maxFiles).val true 4)) = none := by
  obtain ⟨k₀, k, hb, hr, -, hforgot, htwo, hthree⟩ := sample_clock
  have hcall : k.fdCall sampleBuild k.runningPid (.closeFd (2 : Fin maxFiles).val) =
      some ((k.closeFd k.runningPid 2).1, (k.closeFd k.runningPid 2).2, []) := rfl
  have hr' : run (Kernel.elapse sampleBuild) k₀ (openTwiceCloseOne.map .act) =
      some (k.closeFd k.runningPid 2).1 := by
    have hlast : openTwiceCloseOne.map Moment.act =
      [.act openRtc, .act openRtc] ++ [.act (.fdCall (.closeFd 2))] := rfl
    rw [hlast, run_append, hr]
    rfl
  have hlocal := Local.fdCall (S := {k.runningPid}) rfl hcall
  rcases Kernel.fdCall_rtc hcall with ⟨-, hno⟩ | ⟨i, he, -, hoff, hopened⟩ | ⟨-, -, hno⟩
  · exact absurd rfl (hno _)
  · obtain rfl : 2 = i := Fin.ext (Int.ofNat_inj.mp (FdCall.closeFd.inj he))
    have hsilent : Silent (k.closeFd k.runningPid 2).1 := by
      refine ⟨hoff, ?_⟩
      rw [Kernel.closeFd_intOccur]
      exact hforgot
    have hnil : run (Kernel.elapse sampleBuild) (k.closeFd k.runningPid 2).1 [] =
      some (k.closeFd k.runningPid 2).1 := rfl
    refine ⟨k₀, _, hb, hr', rtc_starves hb hr' hsilent hnil
      (fun v a hv ↦ (visits_nil hv).elim) ?_ 4⟩
    rw [hlocal.runningPid_eq, IsRtc, hopened, update_of_ne (by decide)]
    exact hthree
  · exact absurd htwo (hno 2 rfl)

end ApollOS
