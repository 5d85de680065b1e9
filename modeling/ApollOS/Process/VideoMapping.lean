import ApollOS.Process.CleanStart

namespace ApollOS

open Function Runs

variable {b : Build} {m : Machine} {k k' k₀ : Kernel} {pg : Paging} {ptr : UInt32}
  {xs : List Happening} {d : Prop} {p : ℕ}

def InUserPage (ptr : UInt32) : Prop := virtualStart ≤ ptr.toNat ∧ ptr.toNat + 4 ≤ virtualEnd

instance : Decidable (InUserPage ptr) := inferInstanceAs (Decidable (_ ∧ _))

def Accepted (ptr : UInt32) : Prop := virtualStart ≤ ptr.toNat ∧ ptr.toNat ≤ virtualEnd

/-- A call of `vidmap` that maps the video page and stores where to find it. -/
structure VideoGranted (b : Build) (ptr : UInt32) (k k' : Kernel) : Prop where
  word : le32 (k'.page k.runningPid) (ptr.toNat - virtualStart) = virtualEnd.toUInt32
  others : ∀ a : ℤ, (∀ i < 4, a ≠ (userBlock k.runningPid + (ptr.toNat - virtualStart + i) : ℕ)) →
    k'.console.mem a = k.console.mem a
  video : ∀ i < fourKb,
    walk b k'.paging (virtualEnd + i) = some ⟨vidMemLoc * fourKb + i, true⟩
  own : ∀ v, virtualStart ≤ v → v < virtualEnd → walk b k'.paging v = walk b k.paging v

structure VideoMapped (b : Build) (ptr : UInt32) (k : Kernel) : Prop where
  refused : ¬ InUserPage ptr → k.vidmap b ptr = some (k, -1)
  granted : InUserPage ptr → ∃ k', k.vidmap b ptr = some (k', 0) ∧ VideoGranted b ptr k k'

/-- No address from 2 GB on passes: as a signed number it is negative. -/
theorem accepted_iff : Accepted ptr ↔
    ¬ (ptr.toInt32.toInt < virtualStart ∨ ptr.toInt32.toInt > virtualEnd) := by
  rcases Nat.lt_or_ge ptr.toNat (2 ^ 31) with hlow | hhigh
  · rw [toInt_toInt32 hlow, Accepted, not_or, not_lt, not_lt]
    exact and_congr Nat.cast_le.symm Nat.cast_le.symm
  · have hneg : ptr.toInt32.toInt = ptr.toNat - 2 ^ 32 := by
      have hbits : ptr.toInt32.toInt = ptr.toBitVec.toInt := rfl
      rw [hbits, BitVec.toInt_eq_toNat_cond, if_neg (by simpa using by omega)]
      rfl
    have hlt := ptr.toNat_lt
    simp only [Accepted, hneg, virtualStart, virtualEnd]
    omega

theorem not_accepted_zero : ¬ Accepted 0 := by
  rw [Accepted]
  decide

theorem vidmap_of_not_accepted (h : ¬ Accepted ptr) : k.vidmap b ptr = some (k, -1) := by
  rw [accepted_iff, not_not] at h
  rw [Kernel.vidmap, if_pos h, ite_self]

theorem vidmap_of_accepted (h : Accepted ptr) : k.vidmap b ptr =
    (storeBytes b (k.videoMapped b).paging [0, 0, 0x40, 0x08] ptr.toNat k.console.mem).map
      fun mem ↦ ({ k.videoMapped b with console := { k.console with mem := mem } }, 0) := by
  have hnull : ptr ≠ 0 := by
    rintro rfl
    exact not_accepted_zero h
  rw [Kernel.vidmap, if_neg hnull, if_neg (accepted_iff.mp h)]
  rfl

theorem Mapped.walk_word (h : Mapped b pg p) (hp : p < maxProcesses) (hptr : InUserPage ptr)
    {i : ℕ} (hi : i < 4) : walk b pg (ptr.toNat + i) =
      some ⟨userBlock p + (ptr.toNat - virtualStart + i), true⟩ := by
  obtain ⟨hstart, hend⟩ := hptr
  have hsub : ptr.toNat + i - virtualStart = ptr.toNat - virtualStart + i :=
    Nat.sub_add_comm hstart
  rw [h.walk_program hp (by omega) (by omega), hsub]

theorem Accounted.vidmap_granted (h : Accounted b k.paging k.runningPid d)
    (hp : k.runningPid < maxProcesses) (hptr : InUserPage ptr) :
    ∃ k', k.vidmap b ptr = some (k', 0) ∧ VideoGranted b ptr k k' := by
  have hnew : Accounted b (k.videoMapped b).paging k.runningPid True := h.vidmap trivial
  have hwalk {i : ℕ} (hi : i < 4) := hnew.walk_word hp hptr hi
  have hsome : (storeBytes b (k.videoMapped b).paging [0, 0, 0x40, 0x08] ptr.toNat
      k.console.mem).isSome := by
    refine storeBytes_isSome_iff.mpr fun i hi ↦ ?_
    rw [hwalk hi]
    rfl
  obtain ⟨mem, hmem⟩ := Option.isSome_iff_exists.mp hsome
  have hbyte {i : ℕ} (hi : i < 4) :
      mem (userBlock k.runningPid + (ptr.toNat - virtualStart + i) : ℕ) =
        ([0, 0, 0x40, 0x08] : List UInt8).getD i 0 := by
    refine storeBytes_stored hmem hi (hwalk hi) fun j hij hj t ht ↦ ?_
    rw [hwalk hj] at ht
    obtain rfl := Option.some.inj ht
    dsimp only
    omega
  have haccepted : Accepted ptr := ⟨hptr.1, by have := hptr.2; omega⟩
  rw [vidmap_of_accepted haccepted, hmem]
  refine ⟨_, rfl, ?_, ?_, ?_, ?_⟩
  · simp only [le32, Kernel.page]
    rw [hbyte (i := 1) (by decide), hbyte (i := 2) (by decide), hbyte (i := 3) (by decide),
      ← Nat.add_zero (ptr.toNat - virtualStart), hbyte (i := 0) (by decide)]
    decide
  · intro a ha
    refine storeBytes_frame hmem fun i hi t ht ↦ ?_
    rw [hwalk hi] at ht
    obtain rfl := Option.some.inj ht
    exact ha i hi
  · intro i hi
    exact hnew.walk_userAddress hp (.video trivial (.inr rfl) hi)
  · intro v hstart hend
    rw [h.walk_program hp hstart hend]
    exact hnew.walk_program hp hstart hend

/-- A word that begins in the last bytes of the user page, or at its end: its last byte goes
through the mapping that has just been made, on the screen. -/
theorem Accounted.vidmap_end (h : Accounted b k.paging k.runningPid d)
    (hp : k.runningPid < maxProcesses) (hroom : virtualEnd - 4 < ptr.toNat)
    (hend : ptr.toNat ≤ virtualEnd) : ∃ k', k.vidmap b ptr = some (k', 0) ∧
      k'.console.mem (vidMemLoc * fourKb + (ptr.toNat + 3 - virtualEnd) : ℕ) = 8 := by
  have hnew : Accounted b (k.videoMapped b).paging k.runningPid True := h.vidmap trivial
  have hstart : virtualStart ≤ ptr.toNat := le_trans (by decide) hroom.le
  have hvideo {i : ℕ} (hi : i < 4) (hv : virtualEnd ≤ ptr.toNat + i) :
      walk b (k.videoMapped b).paging (ptr.toNat + i) =
        some ⟨vidMemLoc * fourKb + (ptr.toNat + i - virtualEnd), true⟩ := by
    have hlt : ptr.toNat + i - virtualEnd < fourKb := by
      simp only [fourKb]
      omega
    have hwalk := hnew.walk_userAddress hp (.video trivial (.inr rfl) hlt)
    rwa [Nat.add_sub_of_le hv] at hwalk
  have hsome : (storeBytes b (k.videoMapped b).paging [0, 0, 0x40, 0x08] ptr.toNat
      k.console.mem).isSome := by
    refine storeBytes_isSome_iff.mpr fun i hi ↦ ?_
    rcases Nat.lt_or_ge (ptr.toNat + i) virtualEnd with hlow | hhigh
    · rw [hnew.walk_program hp (by omega) hlow]
      rfl
    · rw [hvideo hi hhigh]
      rfl
  obtain ⟨mem, hmem⟩ := Option.isSome_iff_exists.mp hsome
  rw [vidmap_of_accepted ⟨hstart, hend⟩, hmem]
  refine ⟨_, rfl, ?_⟩
  have hlast : virtualEnd ≤ ptr.toNat + 3 := by
    simp only [virtualEnd] at *
    omega
  have hwalk := hvideo (i := 3) (by decide) hlast
  have hbyte := storeBytes_stored hmem (by decide) hwalk
    fun i hi hi' ↦ absurd hi' (Nat.not_lt.mpr hi)
  exact hbyte

/-- In every reachable state `vidmap` does what its caller expects, for every pointer but
those at the end of the user page that leave no room for a word: these pass the test too. -/
theorem vidmap_right_iff (hb : Boots b m k₀) (hr : run (Kernel.happen b) k₀ xs = some k)
    (ptr : UInt32) :
    VideoMapped b ptr k ↔ ¬ (virtualEnd - 4 < ptr.toNat ∧ ptr.toNat ≤ virtualEnd) := by
  obtain ⟨⟨held, hf⟩, ⟨d, hd⟩, -⟩ := Tracked.reachable hb hr
  have hp := hf.running_lt
  constructor
  · rintro h ⟨hroom, hend⟩
    have haccepted : Accepted ptr := ⟨le_trans (by decide) hroom.le, hend⟩
    have houtside : ¬ InUserPage ptr := fun hin ↦ by
      have hlast := hin.2
      simp only [virtualEnd] at *
      omega
    have hrefused := h.refused houtside
    rw [vidmap_of_accepted haccepted, Option.map_eq_some_iff] at hrefused
    obtain ⟨mem, -, he⟩ := hrefused
    exact absurd (Prod.mk.inj he).2 (by decide)
  · intro h
    refine ⟨fun hout ↦ vidmap_of_not_accepted fun haccepted ↦ ?_, hd.vidmap_granted hp⟩
    refine hout ⟨haccepted.1, ?_⟩
    have hend := haccepted.2
    simp only [virtualEnd] at *
    omega

/-- A program that was started asks for the video page, with the first and with the last word of
its page, and with the screen behind it. -/
theorem vidmap_right_sample : ∃ k₀ k, Boots sampleBuild sampleMachine k₀ ∧
    run (Kernel.happen sampleBuild) k₀ [.enters (.execute (some shellCommand))] = some k ∧
    VideoMapped sampleBuild virtualStart.toUInt32 k ∧
    VideoMapped sampleBuild (virtualEnd - 4).toUInt32 k ∧
    ¬ VideoMapped sampleBuild (virtualEnd - 1).toUInt32 k := by
  obtain ⟨k₀, k, entry, held, hb, hexec, -⟩ := sample_child
  have hr : run (Kernel.happen sampleBuild) k₀ [.enters (.execute (some shellCommand))] = some k :=
    run_cons_eq_some.mpr ⟨k, Kernel.step_execute hexec, rfl⟩
  refine ⟨k₀, k, hb, hr, (vidmap_right_iff hb hr _).mpr (by decide),
    (vidmap_right_iff hb hr _).mpr (by decide), fun h ↦ ?_⟩
  exact (vidmap_right_iff hb hr _).mp h (by decide)

/-- The first address behind the user page is accepted, and the word is stored on the screen. -/
theorem vidmap_behind_page : ∃ k k', Boots sampleBuild sampleMachine k ∧
    ¬ InUserPage virtualEnd.toUInt32 ∧
    k.vidmap sampleBuild virtualEnd.toUInt32 = some (k', 0) ∧ k'.console.mem 0xB8003 = 8 ∧
    ¬ VideoMapped sampleBuild virtualEnd.toUInt32 k := by
  obtain ⟨k, hb⟩ := sample_boots
  have hf := boots_forest hb
  have houtside : ¬ InUserPage virtualEnd.toUInt32 := by decide
  have hroom : virtualEnd - 4 < virtualEnd.toUInt32.toNat := by decide
  obtain ⟨k', hvid, hbyte⟩ := (boots_accounted hb).vidmap_end
    hf.running_lt hroom (by decide)
  refine ⟨k, k', hb, houtside, hvid, hbyte, fun h ↦ ?_⟩
  have hrefused := (h.refused houtside).symm.trans hvid
  exact absurd (Prod.mk.inj (Option.some.inj hrefused)).2 (by decide)

end ApollOS
