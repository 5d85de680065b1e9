import ApollOS.Process.KernelStack
import Mathlib.Order.CompletePartialOrder

namespace ApollOS

open Function Runs

variable {b : Build} {m : Machine} {k k' k₀ : Kernel} {pg : Paging} {a : Action}
  {es : List Action} {p v : ℕ}

/-- The entries of the page tables while process `p` runs. Entry 33 of the
directory and entry 0 of the user table are left open: `vidmap` writes them. -/
structure Mapped (b : Build) (pg : Paging) (p : ℕ) : Prop where
  low : pg.pageDir 0 = b.pageTableAddr.toUInt32 ||| 3
  kernel : pg.pageDir 1 = fourMb.toUInt32 ||| pageDirFlags
  terminals : pg.pageDir (termMem / fourMb) = b.userTableAddr.toUInt32 ||| rwpFlags
  program : pg.pageDir (virtualStart / fourMb) = (userBlock p).toUInt32 ||| rwFlags
  table : pg.pageTable = fun i ↦
    let entry := (fourKb * i).toUInt32 ||| 2
    if i = vidMemLoc then entry ||| 3 else entry
  pages : ∀ t : Fin maxTerminals,
    pg.userTable (t.val + 1) = (termPage t).toUInt32 ||| rwpFlags

theorem termPage_lt (t : Fin maxTerminals) : termPage t < 2 ^ 32 := by
  have ht : t.val < 3 := t.isLt
  simp only [termPage, termMem, fourKb]
  omega

theorem termPage_aligned (t : Fin maxTerminals) : termPage t % fourKb = 0 := by
  simp only [termPage, termMem, fourKb]
  omega

namespace Mapped

variable {q : ℕ}

theorem remap (h : Mapped b pg q) : Mapped b (pg.remap virtualStart (userBlock p)) p where
  low := (Paging.remap_pageDir_of_ne (by decide)).trans h.low
  kernel := (Paging.remap_pageDir_of_ne (by decide)).trans h.kernel
  terminals := (Paging.remap_pageDir_of_ne (by decide)).trans h.terminals
  program := Paging.remap_pageDir_self
  table := h.table
  pages := h.pages

theorem remapWithPageTable (h : Mapped b pg p) (addr : ℕ) :
    Mapped b (pg.remapWithPageTable b virtualEnd addr) p where
  low := (Paging.remapWithPageTable_pageDir_of_ne (by decide)).trans h.low
  kernel := (Paging.remapWithPageTable_pageDir_of_ne (by decide)).trans h.kernel
  terminals := (Paging.remapWithPageTable_pageDir_of_ne (by decide)).trans h.terminals
  program := (Paging.remapWithPageTable_pageDir_of_ne (by decide)).trans h.program
  table := h.table
  pages t := by
    rw [← h.pages t]
    simp [Paging.remapWithPageTable]

theorem walk_program (h : Mapped b pg p) (hp : p < maxProcesses) (hv : virtualStart ≤ v)
    (hv' : v < virtualEnd) : walk b pg v = some ⟨userBlock p + (v - virtualStart), true⟩ := by
  have hdiv : v / fourMb = virtualStart / fourMb := by
    simp only [virtualStart, virtualEnd, fourMb] at *
    omega
  have hmod : v % fourMb = v - virtualStart := by
    simp only [virtualStart, virtualEnd, fourMb] at *
    omega
  rw [walk_userBlock hp (by rw [hdiv, h.program]), hmod]

theorem walk_kernel (h : Mapped b pg p) (hv : fourMb ≤ v) (hv' : v < 2 * fourMb) :
    walk b pg v = some ⟨v, false⟩ := by
  have hdiv : v / fourMb = 1 := by
    simp only [fourMb] at *
    omega
  have haddr : fourMb + v % fourMb = v := by
    simp only [fourMb] at *
    omega
  have hent : (pg.pageDir (v / fourMb)).toNat = fourMb + 0x83 := by
    rw [hdiv, h.kernel]
    decide
  have hwalk := walk_large (b := b) hent (Nat.mod_self _) (by decide) (by decide) (by decide)
  rwa [haddr] at hwalk

theorem walk_low (h : Mapped b pg p) (hv : v < fourMb) :
    walk b pg v = if v / fourKb = vidMemLoc then some ⟨v, false⟩ else none := by
  have hdiv : v / fourMb = 0 := Nat.div_eq_of_lt hv
  have hent : (pg.pageDir (v / fourMb)).toNat = b.pageTableAddr + 3 := by
    rw [hdiv, h.low, toNat_entry b.pageTable_lt b.pageTable_aligned (by decide)]
    rfl
  have htable : tableAt b pg b.pageTableAddr = some pg.pageTable := if_pos rfl
  have hindex : v / fourKb % 1024 = v / fourKb := by
    refine Nat.mod_eq_of_lt ?_
    simp only [fourMb, fourKb] at *
    omega
  rw [walk_table hent b.pageTable_aligned (by decide) (by decide) (by decide) htable, hindex,
    h.table]
  by_cases hpage : v / fourKb = vidMemLoc
  · have hentry : ((fourKb * vidMemLoc).toUInt32 ||| 2 ||| 3 : UInt32).toNat = 0xB8003 := by decide
    have hpresent : present ((fourKb * vidMemLoc).toUInt32 ||| 2 ||| 3) = true := by decide
    have huser : userBit ((fourKb * vidMemLoc).toUInt32 ||| 2 ||| 3) = false := by decide
    have haddr : 0xB8003 / fourKb * fourKb + v % fourKb = v := by
      simp only [fourKb, vidMemLoc] at *
      omega
    simp only [hpage, if_true, hpresent, hentry, huser, Bool.and_false, haddr]
  · have hlt : fourKb * (v / fourKb) < 2 ^ 32 := by
      simp only [fourMb, fourKb] at *
      omega
    have hentry := toNat_entry (f := 2) hlt (Nat.mul_mod_right _ _) (by decide)
    have habsent : present ((fourKb * (v / fourKb)).toUInt32 ||| 2) = false := by
      rw [present, hentry, decide_eq_false_iff_not]
      simp only [fourKb, UInt32.reduceToNat]
      omega
    simp only [hpage, if_false, habsent, Bool.false_eq_true]

theorem walk_termPage (h : Mapped b pg p) (t : Fin maxTerminals) (hv : termPage t ≤ v)
    (hv' : v < termPage t + fourKb) : walk b pg v = some ⟨v, true⟩ := by
  have ht : t.val < 3 := t.isLt
  have hdiv : v / fourMb = termMem / fourMb := by
    simp only [termPage, termMem, fourKb, fourMb] at *
    omega
  have hindex : v / fourKb % 1024 = t.val + 1 := by
    simp only [termPage, termMem, fourKb] at *
    omega
  have haddr : termPage t + v % fourKb = v := by
    simp only [termPage, termMem, fourKb] at *
    omega
  have hwalk := walk_userTable_page (b := b) (by rw [hdiv, h.terminals]) (by rw [hindex, h.pages t])
    (termPage_lt t) (termPage_aligned t)
  rwa [haddr] at hwalk

end Mapped

theorem Machine.ready_paging : (m.ready b).paging =
    (((initPaging b ⟨fun _ ↦ 0, fun _ ↦ 0, fun _ ↦ 0⟩).remapToPage b termMem (termPage 0)
      1).remapToPage b termMem (termPage 1) 2).remapToPage b termMem (termPage 2) 3 := by
  rw [Machine.ready_eq, Kernel.begun_paging]
  rfl

theorem boots_mapped (h : Boots b m k) : Mapped b k.paging k.runningPid := by
  obtain ⟨-, mem, rfl⟩ := boots_cases h
  rw [runningPid_installed]
  constructor
  all_goals simp only [Kernel.installed, Machine.ready_paging]
  · simp [Paging.remap, Paging.remapToPage, initPaging, virtualStart, termMem, fourMb]
  · simp [Paging.remap, Paging.remapToPage, initPaging, virtualStart, termMem, fourMb]
  · simp [Paging.remap, Paging.remapToPage, virtualStart, termMem, fourMb]
  · exact Paging.remap_pageDir_self
  · rfl
  · intro t
    have ht : ∀ t : Fin maxTerminals, t = 0 ∨ t = 1 ∨ t = 2 := by decide
    rcases ht t with rfl | rfl | rfl
    · simp [Paging.remap, Paging.remapToPage]
    · simp [Paging.remap, Paging.remapToPage]
    · simp [Paging.remap, Paging.remapToPage]

def Action.MapsVideo (b : Build) (k : Kernel) (a : Action) : Prop :=
  ∃ ptr k', a = .vidmap ptr ∧ k.vidmap b ptr = some (k', 0)

/-- What a step does to the page tables: nothing, or it maps the page of the
process that runs after it, or it maps the video page. -/
theorem Forest.step_paging {held : Fin maxTerminals → List ℕ} (hf : Forest k held)
    (hl : Loadable b.image shellCommand) (hk : k.step b a = some k') :
    (¬ a.MapsVideo b k ∧ (k'.paging = k.paging ∧ k'.runningPid = k.runningPid ∨
      k'.paging = k.paging.remap virtualStart (userBlock k'.runningPid))) ∨
    (a.MapsVideo b k ∧ k'.runningPid = k.runningPid ∧
      k'.paging = k.paging.remapWithPageTable b virtualEnd (vidMemLoc * fourKb)) := by
  by_cases hvid : ∃ ptr, a = .vidmap ptr
  · obtain ⟨ptr, rfl⟩ := hvid
    obtain ⟨⟨k₁, r⟩, hr, rfl⟩ := Option.map_eq_some_iff.mp hk
    rcases Kernel.vidmap_cases hr with ⟨rfl, rfl⟩ | ⟨mem, rfl, -, rfl⟩
    · refine .inl ⟨?_, .inl ⟨rfl, rfl⟩⟩
      rintro ⟨ptr', k₂, he, hmaps⟩
      cases he
      simp [hr] at hmaps
    · exact .inr ⟨⟨ptr, _, rfl, hr⟩, rfl, rfl⟩
  · refine .inl ⟨fun ⟨ptr, _, he, _⟩ ↦ hvid ⟨ptr, he⟩, ?_⟩
    cases hf.transition hl hk with
    | quiet _ hs => exact .inl ⟨hs.paging, hs.runningPid_eq⟩
    | vidmap => exact absurd ⟨_, rfl⟩ hvid
    | launch =>
      rw [runningPid_installed]
      exact .inr rfl
    | respawn =>
      rw [runningPid_installed]
      exact .inr rfl
    | resume =>
      rw [hf.resumed_runningPid]
      exact .inr rfl
    | @load term =>
      rw [runningPid_terminalLoad]
      have hpid := (Kernel.leftFor_sameStack k term (t := term)).termPid
      rw [← hpid]
      exact .inr rfl
    | @start term p mem =>
      rw [runningPid_installed]
      have hpaging : ((k.leftFor term).begun term).paging = k.paging := Kernel.begun_paging
      refine .inr ?_
      simp only [Kernel.installed, hpaging]

theorem Forest.step_mapped {held : Fin maxTerminals → List ℕ} (hf : Forest k held)
    (hl : Loadable b.image shellCommand) (h : Mapped b k.paging k.runningPid)
    (hk : k.step b a = some k') : Mapped b k'.paging k'.runningPid := by
  rcases hf.step_paging hl hk with ⟨-, ⟨hpaging, hpid⟩ | hpaging⟩ | ⟨-, hpid, hpaging⟩
  · rwa [hpaging, hpid]
  · rw [hpaging]
    exact h.remap
  · rw [hpaging, hpid]
    exact h.remapWithPageTable _

theorem userBlock_disjoint {q : ℕ} (hpq : p ≠ q) :
    Disjoint (Set.Ico (userBlock p) (userBlock p + fourMb))
      (Set.Ico (userBlock q) (userBlock q + fourMb)) := by
  rw [Set.disjoint_left]
  intro x hx hx'
  simp only [Set.mem_Ico, userBlock, physicalStart, fourMb] at hx hx'
  omega

/-- In every reachable state the address space is the one of the running process:
its own block at 128 MB, the kernel and the video page at their own addresses for
the kernel only, and the pages of the terminals at theirs. -/
theorem address_space (hb : Boots b m k₀) (hr : run (Kernel.step b) k₀ es = some k) :
    (∀ v, virtualStart ≤ v → v < virtualEnd →
      walk b k.paging v = some ⟨userBlock k.runningPid + (v - virtualStart), true⟩) ∧
    (∀ p q, k.live p → k.live q → p ≠ q →
      Disjoint (Set.Ico (userBlock p) (userBlock p + fourMb))
        (Set.Ico (userBlock q) (userBlock q + fourMb))) ∧
    (∀ v, fourMb ≤ v → v < 2 * fourMb → walk b k.paging v = some ⟨v, false⟩) ∧
    (∀ v < fourMb, walk b k.paging v = if v / fourKb = vidMemLoc then some ⟨v, false⟩ else none) ∧
    ∀ t v, termPage t ≤ v → v < termPage t + fourKb → walk b k.paging v = some ⟨v, true⟩ := by
  have hl := (boots_cases hb).1
  have hinv : (∃ held, Forest k held) ∧ Mapped b k.paging k.runningPid := by
    refine invariant (I := fun k ↦ (∃ held, Forest k held) ∧ Mapped b k.paging k.runningPid) ?_
      ⟨⟨_, boots_forest hb⟩, boots_mapped hb⟩ hr
    rintro k a k' ⟨⟨held, hf⟩, hm⟩ hk
    obtain ⟨held', hf', -⟩ := hf.step hl hk
    exact ⟨⟨held', hf'⟩, hf.step_mapped hl hm hk⟩
  obtain ⟨⟨held, hf⟩, hm⟩ := hinv
  have hp := hf.running_lt
  exact ⟨fun v ↦ hm.walk_program hp, fun p q _ _ hpq ↦ userBlock_disjoint hpq,
    fun v ↦ hm.walk_kernel, fun v ↦ hm.walk_low, fun t v ↦ hm.walk_termPage t⟩

section Sample

theorem Mapped.vidmap_own (hm : Mapped b k.paging k.runningPid) (hp : k.runningPid < maxProcesses) :
    ∃ k', k.vidmap b virtualStart.toUInt32 = some (k', 0) := by
  have hm' :
      Mapped b (k.paging.remapWithPageTable b virtualEnd (vidMemLoc * fourKb)) k.runningPid :=
    hm.remapWithPageTable _
  have hstore : (storeBytes b (k.paging.remapWithPageTable b virtualEnd (vidMemLoc * fourKb))
      [0, 0, 0x40, 0x08] virtualStart k.console.mem).isSome := by
    refine storeBytes_isSome_iff.mpr fun i hi ↦ ?_
    rw [hm'.walk_program hp (Nat.le_add_right _ _)]
    · rfl
    · simp only [List.length_cons, List.length_nil, virtualStart, virtualEnd] at *
      omega
  obtain ⟨mem, hmem⟩ := Option.isSome_iff_exists.mp hstore
  have hptr : virtualStart.toUInt32.toNat = virtualStart := by decide
  have hnull : virtualStart.toUInt32 ≠ 0 := by decide
  have hrange : ¬ (virtualStart.toUInt32.toInt32.toInt < virtualStart ∨
      virtualStart.toUInt32.toInt32.toInt > virtualEnd) := by decide
  unfold Kernel.vidmap
  simp only [if_neg hnull, if_neg hrange, hptr, hmem, Option.map_some]
  exact ⟨_, rfl⟩

/-- The first shell runs another one, which has the video page mapped; the user changes to the
second terminal and back, and the inner shell halts. -/
theorem address_space_sample : ∃ k₀ k₂ k₄, Boots sampleBuild sampleMachine k₀ ∧
    run (Kernel.step sampleBuild) k₀ [.execute (some shellCommand), .vidmap virtualStart.toUInt32,
      .console (.switch 1)] = some k₂ ∧
    run (Kernel.step sampleBuild) k₂ [.console (.switch 0), .halt 0] = some k₄ ∧
    walk sampleBuild k₂.paging executeStart = some ⟨userBlock k₂.runningPid + 0x48000, true⟩ ∧
    walk sampleBuild k₄.paging executeStart = some ⟨userBlock k₄.runningPid + 0x48000, true⟩ ∧
    walk sampleBuild k₄.paging 0x500000 = some ⟨0x500000, false⟩ ∧
    walk sampleBuild k₄.paging (termPage 1) = some ⟨termPage 1, true⟩ := by
  obtain ⟨k₀, k₁, entry, held₁, hb, hexec, hf₁, hcur, htwo, hnew, hroom⟩ := sample_inner
  have hl := (boots_cases hb).1
  have hstep := Kernel.step_execute hexec
  have hm := (boots_forest hb).step_mapped hl (boots_mapped hb) hstep
  obtain ⟨u, hvid⟩ := hm.vidmap_own hf₁.running_lt
  have hmap : k₁.step sampleBuild (.vidmap virtualStart.toUInt32) = some u :=
    congrArg (Option.map Prod.fst) hvid
  obtain ⟨held, hf, -⟩ := hf₁.step hl hmap
  rcases Kernel.vidmap_cases hvid with ⟨-, hr⟩ | ⟨mem, -, -, rfl⟩
  · simp at hr
  obtain ⟨k₂, k₃, k₄, haway, hback, hhalt, -⟩ := hf.away_and_back hl hcur htwo hnew hroom
  have hr : run (Kernel.step sampleBuild) k₀ [.execute (some shellCommand),
      .vidmap virtualStart.toUInt32, .console (.switch 1)] = some k₂ :=
    run_cons_eq_some.mpr ⟨k₁, hstep, run_cons_eq_some.mpr ⟨_, hmap,
      run_cons_eq_some.mpr ⟨k₂, haway, rfl⟩⟩⟩
  have hr' : run (Kernel.step sampleBuild) k₂ [.console (.switch 0), .halt 0] = some k₄ :=
    run_cons_eq_some.mpr ⟨k₃, hback, run_cons_eq_some.mpr ⟨k₄, hhalt, rfl⟩⟩
  have hall : run (Kernel.step sampleBuild) k₀ ([.execute (some shellCommand),
      .vidmap virtualStart.toUInt32, .console (.switch 1)] ++ [.console (.switch 0), .halt 0]) =
      some k₄ := by
    rw [run_append, hr]
    exact hr'
  obtain ⟨hprogram, -⟩ := address_space hb hr
  obtain ⟨hprogram', -, hkernel, -, hterm⟩ := address_space hb hall
  exact ⟨k₀, k₂, k₄, hb, hr, hr', hprogram executeStart (by decide) (by decide),
    hprogram' executeStart (by decide) (by decide), hkernel _ (by decide) (by decide),
    hterm 1 _ le_rfl (by decide)⟩

end Sample

end ApollOS
