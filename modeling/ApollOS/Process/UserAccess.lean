import ApollOS.Process.AddressSpace

namespace ApollOS

open Function Runs

variable {b : Build} {m : Machine} {k k' k₀ : Kernel} {pg : Paging} {a : Action}
  {es : List Action} {d : Prop} {p q v x base i : ℕ}

/-- All the entries of the page tables while process `p` runs. `d` says whether
a call of `vidmap` has ever succeeded: nothing takes its mapping away again. -/
structure Accounted (b : Build) (pg : Paging) (p : ℕ) (d : Prop) : Prop extends Mapped b pg p where
  absent : ∀ e, e ≠ 0 → e ≠ 1 → e ≠ termMem / fourMb → e ≠ virtualStart / fourMb →
    e ≠ virtualEnd / fourMb → pg.pageDir e = 2
  unused : ∀ i, maxTerminals < i → pg.userTable i = 0
  noVideo : ¬ d → pg.pageDir (virtualEnd / fourMb) = 2 ∧ pg.userTable 0 = 0
  video : d → pg.pageDir (virtualEnd / fourMb) = b.userTableAddr.toUInt32 ||| rwpFlags ∧
    pg.userTable 0 = (vidMemLoc * fourKb).toUInt32 ||| rwpFlags

/-- User mode finds the physical address at the virtual one: in its own page, in
the page of a terminal, and, where the user table is installed a second time by
`vidmap`, in the pages of the terminals again and in the video page. -/
inductive UserAddress (p : ℕ) (d : Prop) : ℕ → ℕ → Prop
  | own {v : ℕ} : virtualStart ≤ v → v < virtualEnd →
    UserAddress p d v (userBlock p + (v - virtualStart))
  | terminal (t : Fin maxTerminals) {j : ℕ} : j < fourKb →
    UserAddress p d (termPage t + j) (termPage t + j)
  | video {base j : ℕ} : d → base = termMem ∨ base = virtualEnd → j < fourKb →
    UserAddress p d (base + j) (vidMemLoc * fourKb + j)
  | again (t : Fin maxTerminals) {j : ℕ} : d → j < fourKb →
    UserAddress p d (virtualEnd + (t.val + 1) * fourKb + j) (termPage t + j)

namespace Accounted

theorem remap (h : Accounted b pg q d) :
    Accounted b (pg.remap virtualStart (userBlock p)) p d where
  __ := h.toMapped.remap
  absent e h0 h1 ht hs he := (Paging.remap_pageDir_of_ne hs).trans (h.absent e h0 h1 ht hs he)
  unused := h.unused
  noVideo hd := ⟨(Paging.remap_pageDir_of_ne (by decide)).trans (h.noVideo hd).1, (h.noVideo hd).2⟩
  video hd := ⟨(Paging.remap_pageDir_of_ne (by decide)).trans (h.video hd).1, (h.video hd).2⟩

theorem vidmap (h : Accounted b pg p d) {c : Prop} (hc : c) :
    Accounted b (pg.remapWithPageTable b virtualEnd (vidMemLoc * fourKb)) p c where
  __ := h.toMapped.remapWithPageTable _
  absent e h0 h1 ht hs he :=
    (Paging.remapWithPageTable_pageDir_of_ne he).trans (h.absent e h0 h1 ht hs he)
  unused i hi := by
    have hi0 : i ≠ 0 := by omega
    simp [Paging.remapWithPageTable, hi0, h.unused i hi]
  noVideo hd := absurd hc hd
  video _ := by simp [Paging.remapWithPageTable]

theorem walk_installed (h : Accounted b pg p d) (hbase : base % fourMb = 0)
    (hdir : pg.pageDir (base / fourMb) = b.userTableAddr.toUInt32 ||| rwpFlags)
    (hi : i < fourMb) : walk b pg (base + i) = some ⟨x, true⟩ ↔
      (d ∧ i < fourKb ∧ x = vidMemLoc * fourKb + i) ∨
      ∃ t : Fin maxTerminals, ∃ j < fourKb, i = (t.val + 1) * fourKb + j ∧ x = termPage t + j := by
  have hdiv : (base + i) / fourMb = base / fourMb := by
    simp only [fourMb] at *
    omega
  have hindex : (base + i) / fourKb % 1024 = i / fourKb := by
    simp only [fourMb, fourKb] at *
    omega
  have hoff : (base + i) % fourKb = i % fourKb := by
    simp only [fourMb, fourKb] at *
    omega
  rw [← hdiv] at hdir
  rcases Nat.lt_or_ge i fourKb with hlow | hhigh
  · have hpage : i / fourKb = 0 := Nat.div_eq_of_lt hlow
    have hnone : ¬ ∃ t : Fin maxTerminals, ∃ j < fourKb,
        i = (t.val + 1) * fourKb + j ∧ x = termPage t + j := by
      rintro ⟨t, j, hj, hij, -⟩
      rw [Nat.succ_mul] at hij
      omega
    rw [or_iff_left hnone]
    by_cases hd : d
    · rw [walk_userTable_page hdir (by rw [hindex, hpage, (h.video hd).2]) (by decide) (by decide),
        hoff, Nat.mod_eq_of_lt hlow]
      simp [hd, hlow, eq_comm]
    · rw [walk_userTable_none hdir (by rw [hindex, hpage, (h.noVideo hd).2])]
      simp [hd]
  · have hnone : ¬ (d ∧ i < fourKb ∧ x = vidMemLoc * fourKb + i) := fun hc ↦ by omega
    rw [or_iff_right hnone]
    rcases Nat.lt_or_ge maxTerminals (i / fourKb) with hbig | hsmall
    · rw [walk_userTable_none hdir (by rw [hindex, h.unused _ hbig])]
      simp only [reduceCtorEq, false_iff]
      rintro ⟨t, j, hj, hij, -⟩
      have ht := t.isLt
      simp only [fourKb] at *
      omega
    · obtain ⟨n, hn⟩ : ∃ n, i / fourKb = n + 1 :=
        Nat.exists_eq_add_one.mpr (Nat.div_pos hhigh (by decide))
      have hlt : n < maxTerminals := by omega
      rw [walk_userTable_page hdir (by rw [hindex, hn, h.pages ⟨n, hlt⟩]) (termPage_lt _)
        (termPage_aligned _), hoff]
      constructor
      · intro hx
        obtain ⟨rfl, -⟩ := Translation.mk.inj (Option.some.inj hx)
        refine ⟨⟨n, hlt⟩, i % fourKb, Nat.mod_lt _ (by decide), ?_, rfl⟩
        rw [← hn, Nat.mul_comm]
        exact (Nat.div_add_mod i fourKb).symm
      · rintro ⟨t, j, hj, hij, rfl⟩
        have ht : t = ⟨n, hlt⟩ := by
          refine Fin.ext ?_
          simp only [fourKb] at *
          omega
        subst ht
        have hmod : i % fourKb = j := by
          simp only [fourKb] at *
          omega
        rw [hmod]

theorem walk_user_low (h : Accounted b pg p d) (hv : v < 2 * fourMb) :
    walk b pg v ≠ some ⟨x, true⟩ := by
  rcases Nat.lt_or_ge v fourMb with hlow | hhigh
  · rw [h.walk_low hlow]
    split <;> simp
  · simp [h.walk_kernel hhigh hv]

theorem walk_userAddress (h : Accounted b pg p d) (hp : p < maxProcesses)
    (hx : UserAddress p d v x) : walk b pg v = some ⟨x, true⟩ := by
  cases hx with
  | own hstart hend => exact h.walk_program hp hstart hend
  | terminal t hj => exact h.walk_termPage t (Nat.le_add_right _ _) (Nat.add_lt_add_left hj _)
  | @video base j hd hbase hj =>
    have hlt : j < fourMb := hj.trans (by decide)
    rcases hbase with rfl | rfl
    · exact (h.walk_installed (by decide) h.terminals hlt).mpr (.inl ⟨hd, hj, rfl⟩)
    · exact (h.walk_installed (by decide) (h.video hd).1 hlt).mpr (.inl ⟨hd, hj, rfl⟩)
  | @again t j hd hj =>
    have ht : t.val < 3 := t.isLt
    have hlt : (t.val + 1) * fourKb + j < fourMb := by
      simp only [fourKb, fourMb] at *
      omega
    rw [Nat.add_assoc]
    exact (h.walk_installed (by decide) (h.video hd).1 hlt).mpr (.inr ⟨t, j, hj, rfl, rfl⟩)

theorem userAddress_of_walk (h : Accounted b pg p d) (hp : p < maxProcesses)
    (hx : walk b pg v = some ⟨x, true⟩) : UserAddress p d v x := by
  -- one case for each entry of the directory that `init_paging`, `remap` or `vidmap` fills in
  have hsplit : v / fourMb * fourMb + v % fourMb = v := Nat.div_add_mod' v fourMb
  have hlt : v % fourMb < fourMb := Nat.mod_lt v (by decide)
  by_cases hlow : v < 2 * fourMb
  · exact absurd hx (h.walk_user_low hlow)
  by_cases hown : v / fourMb = virtualStart / fourMb
  · have hstart : virtualStart ≤ v ∧ v < virtualEnd := by
      simp only [virtualStart, virtualEnd, fourMb] at *
      omega
    rw [h.walk_program hp hstart.1 hstart.2] at hx
    obtain ⟨rfl, -⟩ := Translation.mk.inj (Option.some.inj hx)
    exact .own hstart.1 hstart.2
  by_cases hterm : v / fourMb = termMem / fourMb
  · have hbase : v = termMem + v % fourMb := by
      rw [hterm] at hsplit
      exact hsplit.symm
    rw [hbase, h.walk_installed (by decide) h.terminals hlt] at hx
    rcases hx with ⟨hd, hj, rfl⟩ | ⟨t, j, hj, hi, rfl⟩
    · have haddr := UserAddress.video (p := p) hd (.inl rfl) hj
      rwa [← hbase] at haddr
    · have hv : v = termPage t + j := by
        rw [hbase, hi, termPage, Nat.add_assoc]
      rw [hv]
      exact .terminal t hj
  by_cases hvid : v / fourMb = virtualEnd / fourMb
  · have hbase : v = virtualEnd + v % fourMb := by
      rw [hvid] at hsplit
      exact hsplit.symm
    by_cases hd : d
    · rw [hbase, h.walk_installed (by decide) (h.video hd).1 hlt] at hx
      rcases hx with ⟨-, hj, rfl⟩ | ⟨t, j, hj, hi, rfl⟩
      · have haddr := UserAddress.video (p := p) hd (.inr rfl) hj
        rwa [← hbase] at haddr
      · rw [hbase, hi, ← Nat.add_assoc]
        exact .again t hd hj
    · rw [walk_absent (by rw [hvid, (h.noVideo hd).1])] at hx
      simp at hx
  have hne : v / fourMb ≠ 0 ∧ v / fourMb ≠ 1 := by
    simp only [fourMb] at *
    omega
  rw [walk_absent (h.absent _ hne.1 hne.2 hterm hown hvid)] at hx
  simp at hx

end Accounted

theorem boots_accounted (h : Boots b m k) : Accounted b k.paging k.runningPid False := by
  have hm := boots_mapped h
  obtain ⟨-, mem, rfl⟩ := boots_cases h
  refine ⟨hm, ?_, ?_, ?_, False.elim⟩
  all_goals simp only [Kernel.installed, Machine.ready_paging]
  · intro e h0 h1 hterm hown _
    simp [Paging.remap, Paging.remapToPage, initPaging, h0, h1, hterm, hown]
  · intro i hi
    have hbig : 3 < i := hi
    have hne : i ≠ 1 ∧ i ≠ 2 ∧ i ≠ 3 := by omega
    simp [Paging.remap, Paging.remapToPage, initPaging, hne]
  · intro _
    simp [Paging.remap, Paging.remapToPage, initPaging, virtualEnd, virtualStart, termMem, fourMb]

theorem Forest.step_accounted {held : Fin maxTerminals → List ℕ} (hf : Forest k held)
    (hl : Loadable b.image shellCommand) (h : Accounted b k.paging k.runningPid d)
    (hk : k.step b a = some k') :
    Accounted b k'.paging k'.runningPid (d ∨ a.MapsVideo b k) := by
  rcases hf.step_paging hl hk with ⟨hno, ⟨hpaging, hpid⟩ | hpaging⟩ | ⟨hmaps, hpid, hpaging⟩
  · rwa [hpaging, hpid, propext (or_iff_left hno)]
  · rw [hpaging, propext (or_iff_left hno)]
    exact h.remap
  · rw [hpaging, hpid]
    exact h.vidmap (.inr hmaps)

theorem UserAddress.not_mem_userBlock (h : UserAddress p d v x) (hpq : q ≠ p)
    (hq : q < maxProcesses) : x ∉ Set.Ico (userBlock q) (userBlock q + fourMb) := by
  rw [Set.mem_Ico]
  rintro ⟨hle, hlt⟩
  cases h with
  | own hstart hend =>
    simp only [userBlock, physicalStart, virtualStart, virtualEnd, fourMb] at *
    omega
  | terminal t hj =>
    simp only [userBlock, physicalStart, termPage, termMem, maxProcesses, fourKb, fourMb] at *
    omega
  | video hd hbase hj =>
    simp only [userBlock, physicalStart, vidMemLoc, fourKb, fourMb] at *
    omega
  | again t hd hj =>
    simp only [userBlock, physicalStart, termPage, termMem, maxProcesses, fourKb, fourMb] at *
    omega

/-- In every reachable state user mode can use the page of the running process,
the pages of the terminals and, once a process has had the video page mapped,
what the user table maps at both places where it is installed. No page of
another process is among them. -/
theorem user_access (hb : Boots b m k₀) (hr : run (Kernel.step b) k₀ es = some k) :
    (∀ v x, walk b k.paging v = some ⟨x, true⟩ ↔ UserAddress k.runningPid
      (∃ u a, Visits (Kernel.step b) k₀ es u a ∧ a.MapsVideo b u) v x) ∧
    ∀ v x p, walk b k.paging v = some ⟨x, true⟩ → k.live p → p ≠ k.runningPid →
      x ∉ Set.Ico (userBlock p) (userBlock p + fourMb) := by
  have hl := (boots_cases hb).1
  have hinv := invariant_flag
    (I := fun k d ↦ (∃ held, Forest k held) ∧ Accounted b k.paging k.runningPid d)
    (R := fun k a ↦ a.MapsVideo b k) ?_ ⟨⟨_, boots_forest hb⟩, boots_accounted hb⟩ hr
  · rw [false_or] at hinv
    obtain ⟨⟨held, hf⟩, hm⟩ := hinv
    have hp := hf.running_lt
    refine ⟨fun v x ↦ ⟨hm.userAddress_of_walk hp, hm.walk_userAddress hp⟩,
      fun v x q hx hq hne ↦ (hm.userAddress_of_walk hp hx).not_mem_userBlock hne (hf.bound q hq)⟩
  · rintro k a k' d ⟨⟨held, hf⟩, hm⟩ hk
    obtain ⟨held', hf', -⟩ := hf.step hl hk
    exact ⟨⟨held', hf'⟩, hf.step_accounted hl hm hk⟩

section Sample

/-- The shell runs a program that has the video page mapped and halts. -/
def vidmapAndHalt : List Action :=
  [.execute (some shellCommand), .vidmap virtualStart.toUInt32, .halt 0]

theorem sample_vidmapAndHalt : ∃ k₀ k₁ k₂ k, Boots sampleBuild sampleMachine k₀ ∧
    k₀.step sampleBuild (.execute (some shellCommand)) = some k₁ ∧
    k₁.vidmap sampleBuild virtualStart.toUInt32 = some (k₂, 0) ∧
    k₂.step sampleBuild (.halt 0) = some k ∧ k.runningPid ≠ k₁.runningPid ∧ k₁.runningPid ≠ 0 := by
  obtain ⟨k₀, k₁, entry, held, hb, hexec, hf, htwo⟩ := sample_child
  have hchild := boots_child_ne hb (by decide) hexec
  have hexec := Kernel.step_execute hexec
  have hl := (boots_cases hb).1
  have hm := (boots_forest hb).step_mapped hl (boots_mapped hb) hexec
  obtain ⟨k₂, hvid⟩ := hm.vidmap_own hf.running_lt
  have hstep : k₁.step sampleBuild (.vidmap virtualStart.toUInt32) = some k₂ :=
    congrArg (Option.map Prod.fst) hvid
  obtain ⟨held', hf₂, -⟩ := hf.step hl hstep
  rcases Kernel.vidmap_cases hvid with ⟨-, hr⟩ | ⟨mem, -, -, rfl⟩
  · simp at hr
  have hcount : k₁.current.numProcesses ≠ 1 := by
    rw [htwo]
    decide
  have hhalt := hf₂.halt_nested (b := sampleBuild) hcount 0
  refine ⟨k₀, k₁, _, _, hb, hexec, hvid, congrArg (Option.map Prod.fst) hhalt, ?_⟩
  exact ⟨hf₂.resumed_runningPid_ne hcount, hchild⟩

end Sample

/-- After a program that called `vidmap` has halted, its parent can use the video
page without having asked for it; and the saved screen of a terminal has been
within reach of user mode from the start. -/
theorem user_access_beyond_own : ∃ k₀ k, Boots sampleBuild sampleMachine k₀ ∧
    run (Kernel.step sampleBuild) k₀ vidmapAndHalt = some k ∧
    walk sampleBuild k₀.paging (termPage 0) = some ⟨termPage 0, true⟩ ∧
    walk sampleBuild k.paging virtualEnd = some ⟨vidMemLoc * fourKb, true⟩ ∧
    ∀ u a, Visits (Kernel.step sampleBuild) k₀ vidmapAndHalt u a → a.MapsVideo sampleBuild u →
      u.runningPid ≠ k.runningPid := by
  obtain ⟨k₀, k₁, k₂, k, hb, hexec, hvid, hhalt, hne, -⟩ := sample_vidmapAndHalt
  have hl := (boots_cases hb).1
  have hmap : k₁.step sampleBuild (.vidmap virtualStart.toUInt32) = some k₂ :=
    congrArg (Option.map Prod.fst) hvid
  have hf := boots_forest hb
  obtain ⟨held₁, hf₁, -⟩ := hf.step hl hexec
  obtain ⟨held₂, hf₂, -⟩ := hf₁.step hl hmap
  obtain ⟨held, hf', -⟩ := hf₂.step hl hhalt
  have hacc := hf₂.step_accounted hl (hf₁.step_accounted hl (hf.step_accounted hl
    (boots_accounted hb) hexec) hmap) hhalt
  refine ⟨k₀, k, hb, ?_, ?_, ?_, ?_⟩
  · exact run_cons_eq_some.mpr ⟨k₁, hexec, run_cons_eq_some.mpr ⟨k₂, hmap,
      run_cons_eq_some.mpr ⟨k, hhalt, rfl⟩⟩⟩
  · exact (boots_mapped hb).walk_termPage 0 le_rfl (by decide)
  · exact hacc.walk_userAddress hf'.running_lt
      (.video (j := 0) (.inl (.inr ⟨_, k₂, rfl, hvid⟩)) (.inr rfl) (by decide))
  · intro u a hv hmaps
    obtain ⟨ptr, k', rfl, -⟩ := hmaps
    rcases visits_next hexec hv with ⟨-, he⟩ | hv
    · cases he
    rcases visits_next hmap hv with ⟨rfl, -⟩ | hv
    · exact hne.symm
    · cases (visits_singleton hv).2

/-- While the program has the video page mapped, the page of its parent is out of reach; after its
end the video page is still there. -/
theorem user_access_sample : ∃ k₀ k₂ k, Boots sampleBuild sampleMachine k₀ ∧
    run (Kernel.step sampleBuild) k₀ [.execute (some shellCommand),
      .vidmap virtualStart.toUInt32] = some k₂ ∧
    run (Kernel.step sampleBuild) k₀ vidmapAndHalt = some k ∧
    (∀ v x, walk sampleBuild k₂.paging v = some ⟨x, true⟩ →
      x ∉ Set.Ico (userBlock 0) (userBlock 0 + fourMb)) ∧
    walk sampleBuild k₂.paging executeStart = some ⟨userBlock k₂.runningPid + 0x48000, true⟩ ∧
    walk sampleBuild k.paging virtualEnd = some ⟨vidMemLoc * fourKb, true⟩ := by
  obtain ⟨k₀, k₁, k₂, k, hb, hexec, hvid, hhalt, -, hchild⟩ := sample_vidmapAndHalt
  have hl := (boots_cases hb).1
  have hmap : k₁.step sampleBuild (.vidmap virtualStart.toUInt32) = some k₂ :=
    congrArg (Option.map Prod.fst) hvid
  have hf := boots_forest hb
  obtain ⟨held₁, hf₁, -⟩ := hf.step hl hexec
  have hlive₁ : k₁.live 0 := by
    refine hf.step_live hl hexec ((boots_live_iff hb).mpr rfl) ?_
    rintro ⟨-, ⟨⟩ | hexit⟩
    exact absurd hexit (by decide)
  have hlive₂ : k₂.live 0 := hf₁.step_live hl hmap hlive₁ fun hends ↦ hchild hends.1
  have hpid : k₂.runningPid = k₁.runningPid := by
    rcases Kernel.vidmap_cases hvid with ⟨-, hr⟩ | ⟨mem, -, -, rfl⟩
    · simp at hr
    · rfl
  have hr : run (Kernel.step sampleBuild) k₀ [.execute (some shellCommand),
      .vidmap virtualStart.toUInt32] = some k₂ :=
    run_cons_eq_some.mpr ⟨k₁, hexec, run_cons_eq_some.mpr ⟨k₂, hmap, rfl⟩⟩
  have hall : run (Kernel.step sampleBuild) k₀ vidmapAndHalt = some k :=
    run_cons_eq_some.mpr ⟨k₁, hexec, run_cons_eq_some.mpr ⟨k₂, hmap,
      run_cons_eq_some.mpr ⟨k, hhalt, rfl⟩⟩⟩
  obtain ⟨haccess, hapart⟩ := user_access hb hr
  obtain ⟨haccess', -⟩ := user_access hb hall
  have hmaps : ∃ u a, Visits (Kernel.step sampleBuild) k₀ vidmapAndHalt u a ∧
      a.MapsVideo sampleBuild u :=
    ⟨k₁, _, .later hexec .here, _, k₂, rfl, hvid⟩
  exact ⟨k₀, k₂, k, hb, hr, hall, fun v x hx ↦ hapart v x 0 hx hlive₂ (hpid ▸ hchild.symm),
    (haccess _ _).mpr (.own (by decide) (by decide)),
    (haccess' _ _).mpr (.video (j := 0) hmaps (.inr rfl) (by decide))⟩

end ApollOS
