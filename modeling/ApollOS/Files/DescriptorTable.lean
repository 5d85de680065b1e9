import ApollOS.Files.DescriptorCalls

namespace ApollOS

open Function Runs SlotTable

variable {b : Build} {m : Machine} {k k' k₀ : Kernel} {held : Fin maxTerminals → List ℕ}
  {a : Action} {es : List Action} {p q : ℕ} {i : Fin maxFiles} {call : FdCall} {r : ℤ}
  {bytes : List UInt8} {site : CallSite} {args : List UInt8} {mem : Memory}

/-- Process `p` closes a descriptor with success. -/
def Closes (p : ℕ) (fd : ℤ) (k : Kernel) (a : Action) : Prop :=
  k.runningPid = p ∧ a = .fdCall (.closeFd fd) ∧ (k.closeFd p fd).2 = 0

theorem Closes.of_call {fd : ℤ} (hrun : k.runningPid = p)
    (h : k.fdCall b p (.closeFd fd) = some (k', 0, bytes)) :
    Closes p fd k (.fdCall (.closeFd fd)) := by
  obtain ⟨-, hresult⟩ := Prod.mk.inj (Option.some.inj h)
  exact ⟨hrun, rfl, (Prod.mk.inj hresult).1⟩

theorem Kernel.opened_installed (hp : p ≠ q) :
    (k.installed b site q args mem).opened p = k.opened p :=
  opened_eq (update_of_ne hp _ _)

namespace Forest

/-- The descriptors of a process that is there after a step: it is new, or the
step was a call it made, or they are what they were. -/
theorem step_opened (h : Forest k held) (hl : Loadable b.image shellCommand)
    (hk : k.step b a = some k') (hp' : k'.live p) :
    (Fresh (k'.opened p) ∧ (k.live p → Ends p k a)) ∨
    (k.live p ∧ ¬ Ends p k a ∧ (k'.opened p = k.opened p ∨ ∃ call r bytes, a = .fdCall call ∧
      k.runningPid = p ∧ k.fdCall b p call = some (k', r, bytes))) := by
  cases h.transition hl hk with
  | quiet hstays hs =>
    right
    refine ⟨hs.live_iff.mp hp', fun hends ↦ hstays hends.2, ?_⟩
    by_cases hcaller : p ∈ k.caller a
    · obtain ⟨rfl, call, rfl⟩ := hcaller
      obtain ⟨⟨k₁, r, bytes⟩, hcall, rfl⟩ := Option.map_eq_some_iff.mp hk
      exact .inr ⟨call, r, bytes, rfl, rfl, hcall⟩
    · exact .inl (Kernel.opened_eq (hs.pcb p hcaller))
  | vidmap hs =>
    right
    exact ⟨hs.live_iff.mp hp', fun hends ↦ (nomatch hends.2),
      .inl (Kernel.opened_eq (hs.pcb p (Set.notMem_empty p)))⟩
  | launch hexit hnew =>
    rcases (Kernel.live_installed hnew).mp hp' with hp | rfl
    · right
      have hne := Kernel.fresh_ne hnew hp
      refine ⟨hp, ?_, .inl (Kernel.opened_installed hne)⟩
      rintro ⟨-, ⟨⟩ | hexit'⟩
      simp [hexit] at hexit'
    · left
      exact ⟨.installed, fun hp ↦ absurd rfl (Kernel.fresh_ne hnew hp)⟩
  | @respawn _ q mem hleaves _ hnew =>
    rcases (Kernel.live_installed hnew).mp hp' with hp | rfl
    · right
      have hne := Kernel.fresh_ne hnew hp
      obtain ⟨hlive, hrun⟩ := (h.live_retired h.current).mp hp
      exact ⟨hlive, fun hends ↦ hrun hends.1.symm, .inl (Kernel.opened_installed hne)⟩
    · left
      refine ⟨.installed, fun hp ↦ ?_⟩
      by_contra hstay
      have hrun : p ≠ k.runningPid := fun he ↦ hstay ⟨he.symm, hleaves⟩
      exact Kernel.fresh_ne hnew ((h.live_retired h.current).mpr ⟨hp, hrun⟩) rfl
  | resume =>
    right
    obtain ⟨hlive, hrun⟩ := (h.live_retired h.current).mp hp'
    exact ⟨hlive, fun hends ↦ hrun hends.1.symm, .inl rfl⟩
  | load =>
    right
    exact ⟨hp', fun hends ↦ (nomatch hends.2), .inl rfl⟩
  | start _ _ hnew =>
    rcases (Kernel.live_installed hnew).mp hp' with hp | rfl
    · right
      have hne := Kernel.fresh_ne hnew hp
      rw [Kernel.live, Kernel.begun_flags] at hp
      refine ⟨hp, fun hends ↦ (nomatch hends.2),
        .inl ((Kernel.opened_installed hne).trans (Kernel.opened_eq ?_))⟩
      rw [Kernel.begun_pcb]
      rfl
    · left
      refine ⟨.installed, fun hp ↦ absurd rfl (Kernel.fresh_ne hnew ?_)⟩
      rw [Kernel.live, Kernel.begun_flags]
      exact hp

end Forest

theorem boots_fresh (hb : Boots b m k) (hp : k.live p) : Fresh (k.opened p) := by
  obtain ⟨t, ht⟩ := ((boots_forest hb).part.cover p).mp hp
  have hzero : p = 0 := by
    by_cases h0 : t = 0
    · subst h0
      simpa using ht
    · simp [h0] at ht
  subst hzero
  obtain ⟨-, mem, rfl⟩ := boots_cases hb
  exact .installed

def StandardForest (k : Kernel) : Prop :=
  (∃ held, Forest k held) ∧ ∀ p, k.live p → Standard (k.opened p)

namespace StandardForest

theorem step (h : StandardForest k) (hl : Loadable b.image shellCommand)
    (hk : k.step b a = some k') : StandardForest k' := by
  obtain ⟨⟨held, hf⟩, hs⟩ := h
  obtain ⟨held', hf', -⟩ := hf.step hl hk
  refine ⟨⟨held', hf'⟩, fun p hp' ↦ ?_⟩
  rcases hf.step_opened hl hk hp' with
    ⟨hnew, -⟩ | ⟨hp, -, hsame | ⟨call, r, bytes, -, -, hcall⟩⟩
  · exact hnew.toStandard
  · rw [hsame]
    exact hs p hp
  · obtain ⟨u, hserved, happly⟩ := Kernel.fdCall_served hcall
    rw [happly]
    exact (hs p hp).served hserved

theorem boots (hb : Boots b m k) : StandardForest k :=
  ⟨⟨_, boots_forest hb⟩, fun _ hp ↦ (boots_fresh hb hp).toStandard⟩

theorem reachable (hb : Boots b m k₀) (hr : run (Kernel.step b) k₀ es = some k) :
    StandardForest k :=
  invariant (fun _ _ _ h hk ↦ h.step (boots_cases hb).1 hk) (boots hb) hr

end StandardForest

theorem Forest.step_inUse (h : Forest k held) (hl : Loadable b.image shellCommand)
    (hk : k.step b a = some k') (hp : k.live p) (hi : (k.opened p i).isSome)
    (hstay : ¬ Ends p k a) (hopen : ¬ Closes p i.val k a) : (k'.opened p i).isSome := by
  have hp' := h.step_live hl hk hp hstay
  rcases h.step_opened hl hk hp' with
    ⟨-, hends⟩ | ⟨-, -, hsame | ⟨call, r, bytes, rfl, hrun, hcall⟩⟩
  · exact absurd (hends hp) hstay
  · rw [hsame]
    exact hi
  · obtain ⟨u, hserved, happly⟩ := Kernel.fdCall_served hcall
    rw [happly]
    apply Use.isSome_apply hi
    rintro rfl
    obtain ⟨rfl, rfl⟩ := hserved.eq_closeFd
    exact hopen (.of_call hrun hcall)

theorem Forest.run_inUse (h : Forest k held) (hl : Loadable b.image shellCommand)
    (hp : k.live p) (hi : (k.opened p i).isSome)
    (hg : ∀ u a, Visits (Kernel.step b) k es u a → ¬ Ends p u a ∧ ¬ Closes p i.val u a)
    (hr : run (Kernel.step b) k es = some k') : (k'.opened p i).isSome := by
  have hinv : (∃ held, Forest k' held) ∧ k'.live p ∧ (k'.opened p i).isSome := by
    refine guarded_invariant
      (I := fun k ↦ (∃ held, Forest k held) ∧ k.live p ∧ (k.opened p i).isSome)
      (fun k a k' hk hg hs ↦ ?_) ⟨⟨held, h⟩, hp, hi⟩ hg (.stop hr)
    obtain ⟨⟨held, hf⟩, hp, hi⟩ := hk
    obtain ⟨held', hf', -⟩ := hf.step hl hs
    exact ⟨⟨held', hf'⟩, hf.step_live hl hs hp hg.1, hf.step_inUse hl hs hp hi hg.1 hg.2⟩
  exact hinv.2.2

/-- Every process that is there has its standard streams; `open` succeeds exactly if
the name is found and a slot is free, and takes the lowest; what it returned it
returns again only after a `close`; a call that fails changes nothing that is open,
and no call changes the entry of another descriptor. -/
theorem descriptor_table (hb : Boots b m k₀) (hr : run (Kernel.step b) k₀ es = some k)
    (hp : k.live p) :
    Standard (k.opened p) ∧
    (∀ filename, ∃ k' r, k.fdCall b p (.openFd filename) = some (k', r, []) ∧
      (r ≠ -1 ↔ (∃ dentry ops, Found b.image filename dentry ops) ∧
        (free 2 (k.opened p)).Nonempty) ∧
      ∀ dentry ops i, Found b.image filename dentry ops → IsLeast (free 2 (k.opened p)) i →
        r = i.val ∧ k'.opened p = update (k.opened p) i (some ⟨dentry.inodeNum, 0, ops⟩)) ∧
    (∀ filename k₁ (i : Fin maxFiles),
      k.fdCall b p (.openFd filename) = some (k₁, (i.val : ℤ), []) →
      ∀ es' k₂, run (Kernel.step b) k₁ es' = some k₂ →
        (∀ u a, Visits (Kernel.step b) k₁ es' u a → ¬ Ends p u a ∧ ¬ Closes p i.val u a) →
        ∀ filename' k₃ r, k₂.fdCall b p (.openFd filename') = some (k₃, r, []) → r ≠ i.val) ∧
    (∀ call, Fails b.image (k.opened p) call →
      ∃ k', k.fdCall b p call = some (k', -1, []) ∧ k'.opened p = k.opened p) ∧
    (∀ call k' bytes, k.fdCall b p call = some (k', -1, bytes) → k'.opened p = k.opened p) ∧
    ∀ call k' r bytes, k.fdCall b p call = some (k', r, bytes) →
      (∀ j : Fin maxFiles, (k.opened p j).isSome → call.fd ≠ some (j.val : ℤ) →
        k'.opened p j = k.opened p j) ∧ ∀ q ≠ p, k'.pcb q = k.pcb q := by
  have hl := (boots_cases hb).1
  obtain ⟨⟨held, hf⟩, hstd⟩ := StandardForest.reachable hb hr
  have hs := hstd p hp
  refine ⟨hs, fun filename ↦ ?_, ?_, fun call hfails ↦ hfails.fdCall hs, ?_, ?_⟩
  · refine ⟨(k.openFd b p filename).1, (k.openFd b p filename).2, rfl, Kernel.openFd_ne_iff, ?_⟩
    intro dentry ops i hfound hi
    exact Kernel.openFd_found hfound hi
  · intro filename k₁ i hopen es' k₂ hrun hg filename' k₃ r hopen'
    have hlocal := Local.fdCall (S := {p}) rfl hopen
    have hi : (k₁.opened p i).isSome := by
      obtain ⟨u, hserved, happly⟩ := Kernel.fdCall_served hopen
      rw [happly]
      exact hserved.inUse
    have hi' := (hf.congr hlocal.toSameProcesses).run_inUse hl (hlocal.live_iff.mpr hp) hi hg hrun
    obtain ⟨u, hserved, -⟩ := Kernel.fdCall_served hopen'
    exact hserved.ne_inUse hi'
  · intro call k' bytes hcall
    obtain ⟨u, hserved, happly⟩ := Kernel.fdCall_served hcall
    rw [happly, hserved.apply_failed]
  · intro call k' r bytes hcall
    obtain ⟨u, hserved, happly⟩ := Kernel.fdCall_served hcall
    refine ⟨fun j hj hne ↦ ?_, fun q hq ↦ (Local.fdCall (S := {p}) rfl hcall).pcb q hq⟩
    rw [happly]
    exact Use.apply_other hserved.legal hj fun hu ↦ hne (hserved.fd_of_about hu)

section Sample

theorem notes_found :
    Found sampleImage (some (cstr (ascii "notes"))) (.of (ascii "notes") 2 1) .file :=
  ⟨_, rfl, rfl, rfl⟩

theorem boots_live (hb : Boots b m k) : k.live 0 := (boots_live_iff hb).mpr rfl

theorem boots_free (hb : Boots b m k) : IsLeast (free 2 (k.opened 0)) 2 :=
  ⟨⟨le_rfl, (boots_fresh hb (boots_live hb)).rest 2 le_rfl⟩, fun _ hj ↦ hj.1⟩

theorem descriptor_table_sample : ∃ k k', Boots sampleBuild sampleMachine k ∧
    Standard (k.opened 0) ∧
    k.fdCall sampleBuild 0 (.openFd (some (cstr (ascii "notes")))) = some (k', 2, []) ∧
    k'.opened 0 2 = some ⟨1, 0, .file⟩ := by
  obtain ⟨k, hb⟩ := sample_boots
  have hr : run (Kernel.step sampleBuild) k [] = some k := rfl
  obtain ⟨hs, hopen, -⟩ := descriptor_table hb hr (boots_live hb)
  obtain ⟨k', r, hcall, -, hfirst⟩ := hopen (some (cstr (ascii "notes")))
  obtain ⟨rfl, htable⟩ := hfirst _ _ 2 notes_found (boots_free hb)
  refine ⟨k, k', hb, hs, hcall, ?_⟩
  rw [htable, update_self]
  rfl

end Sample

end ApollOS
