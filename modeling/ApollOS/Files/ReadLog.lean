import ApollOS.Files.DescriptorTable

namespace ApollOS

open Function Runs SlotTable

/-- A read of a descriptor: how many bytes are asked for, the return value and what
is stored. -/
structure ReadCall where
  nbytes : ℤ
  value : ℤ
  bytes : List UInt8

namespace Kernel

variable (b : Build) (p : ℕ) (fd : ℤ)

/-- The read into a buffer that process `p` makes of a descriptor in a step. -/
def readOf (k : Kernel) (a : Action) : Option ReadCall :=
  match a with
  | .fdCall (.readFd fd' true nbytes) =>
    if k.runningPid = p ∧ fd' = fd then
      (k.readFd b p fd true nbytes).map fun (_, value, bytes) ↦ ⟨nbytes, value, bytes⟩
    else none
  | _ => none

def reads (k : Kernel) : List Action → List ReadCall
  | [] => []
  | a :: es =>
    match k.step b a with
    | none => []
    | some k' => (k.readOf b p fd a).toList ++ k'.reads es

end Kernel

variable {b : Build} {k k' : Kernel} {held : Fin maxTerminals → List ℕ} {a : Action}
  {es : List Action} {p : ℕ} {i : Fin maxFiles} {fd : ℤ} {e : OpenFile}

theorem Forest.step_read (hf : Forest k held) (hl : Loadable b.image shellCommand)
    (hk : k.step b a = some k') (hp : k.live p) (hopen : k.opened p i = some e)
    (hstay : ¬ Ends p k a) (hclose : ¬ Closes p i.val k a) :
    (k.readOf b p i.val a = none ∧ k'.opened p i = some e) ∨
    ∃ nbytes value bytes, k.readOf b p i.val a = some ⟨nbytes, value, bytes⟩ ∧
      k.readFd b p i.val true nbytes = some (k', value, bytes) := by
  by_cases hread : ∃ nbytes, k.runningPid = p ∧ a = .fdCall (.readFd i.val true nbytes)
  · right
    obtain ⟨nbytes, rfl, rfl⟩ := hread
    obtain ⟨⟨k₁, value, bytes⟩, hcall, rfl⟩ := Option.map_eq_some_iff.mp hk
    have hcall' : k.readFd b k.runningPid i.val true nbytes = some (k₁, value, bytes) := hcall
    refine ⟨nbytes, value, bytes, ?_, hcall'⟩
    simp only [Kernel.readOf, and_self, if_true, hcall', Option.map_some]
  · left
    constructor
    · unfold Kernel.readOf
      split
      · rename_i fd nbytes
        rw [if_neg]
        rintro ⟨hrun, rfl⟩
        exact hread ⟨nbytes, hrun, rfl⟩
      · rfl
    · rcases hf.step_opened hl hk (hf.step_live hl hk hp hstay) with
        ⟨-, hends⟩ | ⟨-, -, hsame | ⟨call, r, bytes, rfl, hrun, hcall⟩⟩
      · exact absurd (hends hp) hstay
      · rw [hsame]
        exact hopen
      · obtain ⟨u, hserved, happly⟩ := Kernel.fdCall_served hcall
        rw [happly, Use.apply_other hserved.legal (Option.isSome_of_eq_some hopen), hopen]
        intro hu
        rcases hserved.about_cases hu with ⟨rfl, rfl⟩ | ⟨nbytes, rfl⟩
        · exact hclose (.of_call hrun hcall)
        · exact hread ⟨nbytes, hrun, rfl⟩

theorem reads_cons_none (hk : k.step b a = some k') (hnone : k.readOf b p fd a = none) :
    k.reads b p fd (a :: es) = k'.reads b p fd es := by
  simp [Kernel.reads, hk, hnone]

theorem reads_cons_some {r : ReadCall} (hk : k.step b a = some k')
    (hsome : k.readOf b p fd a = some r) :
    k.reads b p fd (a :: es) = r :: k'.reads b p fd es := by
  simp [Kernel.reads, hk, hsome]

/-- The invariant rule for what is read in a run: it is about the reads so far, and a
step adds at most one to them. -/
theorem reads_invariant {I : List ReadCall → Kernel → Prop} {G : Kernel → Action → Prop}
    {ok : ReadCall → Prop} {l : List ReadCall}
    (hstep : ∀ log k a k', I log k → G k a → k.step b a = some k' →
      (k.readOf b p fd a = none ∧ I log k') ∨
      ∃ r, k.readOf b p fd a = some r ∧ (ok r → I (log ++ [r]) k'))
    (hs : I l k) (hr : run (Kernel.step b) k es = some k')
    (hg : ∀ u a, Visits (Kernel.step b) k es u a → G u a)
    (hok : ∀ r ∈ k.reads b p fd es, ok r) : I (l ++ k.reads b p fd es) k' := by
  induction es generalizing k l with
  | nil =>
    obtain rfl := Option.some.inj hr
    rwa [Kernel.reads, List.append_nil]
  | cons a es ih =>
    obtain ⟨k₁, hk, hr⟩ := run_cons_eq_some.mp hr
    have hg' := fun u e hv ↦ hg u e (Visits.later hk hv)
    rcases hstep l k a k₁ hs (hg k a .here) hk with ⟨hnone, hs'⟩ | ⟨r, hsome, hs'⟩
    · rw [reads_cons_none hk hnone] at hok ⊢
      exact ih hs' hr hg' hok
    · rw [reads_cons_some hk hsome] at hok ⊢
      have hlast := ih (hs' (hok r List.mem_cons_self)) hr hg'
        fun s hs ↦ hok s (List.mem_cons_of_mem r hs)
      rwa [List.append_assoc] at hlast

theorem step_readFd {nbytes value : ℤ} {bytes : List UInt8} (hrun : k.runningPid = p)
    (hread : k.readFd b p fd true nbytes = some (k', value, bytes)) :
    k.step b (.fdCall (.readFd fd true nbytes)) = some k' ∧ k'.runningPid = p ∧
      ∀ es, k.reads b p fd (.fdCall (.readFd fd true nbytes) :: es) =
        ⟨nbytes, value, bytes⟩ :: k'.reads b p fd es := by
  have hstep : k.step b (.fdCall (.readFd fd true nbytes)) = some k' := by
    rw [Kernel.step, hrun]
    exact Option.map_eq_some_iff.mpr ⟨_, hread, rfl⟩
  have hof : k.readOf b p fd (.fdCall (.readFd fd true nbytes)) = some ⟨nbytes, value, bytes⟩ := by
    rw [Kernel.readOf, if_pos ⟨hrun, rfl⟩]
    exact Option.map_eq_some_iff.mpr ⟨_, hread, rfl⟩
  have hlocal := (FdEffect.readFd hread).toLocal (Set.mem_singleton p)
  exact ⟨hstep, hlocal.runningPid_eq.trans hrun, fun _ ↦ reads_cons_some hstep hof⟩

section Sample

theorem sample_opened {filename : Option (ℕ → UInt8)} {dentry : Dentry} {ops : FileOps}
    (hfound : Found sampleImage filename dentry ops) : ∃ k k₁,
      Boots sampleBuild sampleMachine k ∧
      k.fdCall sampleBuild 0 (.openFd filename) = some (k₁, 2, []) ∧ k₁.runningPid = 0 := by
  obtain ⟨k, hb⟩ := sample_boots
  have hopen := Kernel.fdCall_openFd (b := sampleBuild) (r := 2)
    (Kernel.openFd_found hfound (boots_free hb)).1
  exact ⟨k, _, hb, hopen, (Local.fdCall (S := {0}) rfl hopen).runningPid_eq.trans
    (boots_runningPid hb)⟩

end Sample

end ApollOS
