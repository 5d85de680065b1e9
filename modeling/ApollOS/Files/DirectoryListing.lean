import ApollOS.Files.Names
import ApollOS.Files.ReadLog

namespace ApollOS

open Function Runs FixedField

/-- What the read that follows `j` others is to return: the name of entry `j`, by
which that entry can be opened, or the end of the directory. -/
structure Lists (img : Image) (j : ℕ) (r : ReadCall) : Prop where
  value : j < img.numDirEntries.toNat →
    r.value = (img.dentries j).name.length ∧ 0 < r.value ∧ r.value ≤ fileNameLength
  name : j < img.numDirEntries.toNat → r.bytes.take r.value.toNat = (img.dentries j).name
  reopens : j < img.numDirEntries.toNat →
    readDentryByName img (cstr (r.bytes.take r.value.toNat)) = some (img.dentries j)
  past : img.numDirEntries.toNat ≤ j → r.value = 0 ∧ r.bytes = []

/-- Process `p` has a directory open that it has read from as the log says. -/
structure Listing (b : Build) (p : ℕ) (i : Fin maxFiles) (log : List ReadCall) (k : Kernel) :
    Prop where
  forest : ∃ held, Forest k held
  live : k.live p
  opened : ∃ inode pos, k.opened p i = some ⟨inode, pos, .dir⟩ ∧
    pos.toNat = min log.length b.image.numDirEntries.toNat
  lists : ∀ j (hj : j < log.length), Lists b.image j (log.get ⟨j, hj⟩)

section DirRead

variable {img : Image} {f : File} {nbytes : ℤ} {d : Dentry} {e : ℕ}

theorem Dentry.content_name :
    content 0 fileNameLength (cstr d.name) = d.name := by
  have hnul : (0 : UInt8) ∉ d.name := notMem_content
  exact (content_getD hnul).trans (List.take_of_length_le length_content_le)

theorem dirRead_end (h : img.numDirEntries.toNat ≤ f.pos.toNat) :
    dirRead img f nbytes = (f, 0, []) :=
  if_pos (UInt32.le_iff_toNat_le.mpr h)

theorem dirRead_name (h : f.pos.toNat < img.numDirEntries.toNat) (nbytes : ℤ) :
    dirRead img f nbytes = ({ f with pos := f.pos + 1 },
      ((img.dentries f.pos.toNat).name.length : ℤ),
      strncpy (img.dentries f.pos.toNat).fileName
        (UInt32.ofInt (if nbytes > fileNameLength then (fileNameLength : ℤ) else nbytes)).toNat) :=
  if_neg (UInt32.not_le.mpr (UInt32.lt_iff_toNat_lt.mpr h))

theorem dirRead_entry (h : f.pos.toNat < img.numDirEntries.toNat) (hn : (32 : ℤ) ≤ nbytes) :
    dirRead img f nbytes = ({ f with pos := f.pos + 1 },
      ((img.dentries f.pos.toNat).name.length : ℤ),
      strncpy (img.dentries f.pos.toNat).fileName fileNameLength) := by
  have hcopy : (if nbytes > (fileNameLength : ℤ) then (fileNameLength : ℤ) else nbytes) = 32 := by
    simp only [fileNameLength]
    split_ifs <;> omega
  rw [dirRead_name h, hcopy]
  rfl

/-- What `dir_read` returns is what `strlen` finds, behind the field if need be, cut
at the length of the field. -/
theorem dirRead_strlen (h : f.pos.toNat < img.numDirEntries.toNat)
    (he : IsLeast {i | (img.dentries f.pos.toNat).fileName i = 0} e) (hn : (32 : ℤ) ≤ nbytes) :
    (dirRead img f nbytes).2.1 = (min e fileNameLength : ℕ) := by
  rw [dirRead_entry h hn, ← length_content he]
  rfl

theorem dirRead_lists (hd : img.Directory) {j : ℕ}
    (hpos : f.pos.toNat = min j img.numDirEntries.toNat) (hn : (32 : ℤ) ≤ nbytes) :
    ∃ pos value bytes, dirRead img f nbytes = ({ f with pos := pos }, value, bytes) ∧
      pos.toNat = min (j + 1) img.numDirEntries.toNat ∧ bytes.length ≤ fileNameLength ∧
      Lists img j ⟨nbytes, value, bytes⟩ := by
  rcases Nat.lt_or_ge j img.numDirEntries.toNat with hj | hj
  · have hposj : f.pos.toNat = j := by omega
    have hread := dirRead_entry (hposj ▸ hj) hn
    rw [hposj] at hread
    refine ⟨_, _, _, hread, ?_, length_strncpy.le, ?_⟩
    · have hlt := img.numDirEntries.toNat_lt
      rw [UInt32.toNat_add, hposj, UInt32.toNat_one]
      omega
    · have htake : (strncpy (img.dentries j).fileName fileNameLength).take
          (img.dentries j).name.length = (img.dentries j).name := strncpy_take
      have hlen : 0 < (img.dentries j).name.length := List.length_pos_iff.mpr (hd.named j hj)
      have hle : (img.dentries j).name.length ≤ fileNameLength := length_content_le
      refine ⟨fun _ ↦ ⟨rfl, Int.natCast_pos.mpr hlen, Int.ofNat_le.mpr hle⟩, fun _ ↦ htake,
        fun _ ↦ ?_, fun hge ↦ absurd hge (Nat.not_le.mpr hj)⟩
      simp only [Int.toNat_natCast, htake]
      exact hd.readDentryByName_eq hj Dentry.content_name.symm
  · have hread : dirRead img f nbytes = (f, 0, []) := dirRead_end (by omega)
    refine ⟨f.pos, 0, [], hread, by omega, Nat.zero_le _, ?_⟩
    exact ⟨fun hlt ↦ absurd hlt (Nat.not_lt.mpr hj), fun hlt ↦ absurd hlt (Nat.not_lt.mpr hj),
      fun hlt ↦ absurd hlt (Nat.not_lt.mpr hj), fun _ ↦ ⟨rfl, rfl⟩⟩

end DirRead

namespace Listing

variable {b : Build} {m : Machine} {k k' k₀ : Kernel} {a : Action} {es es' : List Action} {p : ℕ}
  {i : Fin maxFiles} {nbytes : ℤ} {log : List ReadCall} {r : ReadCall}

theorem append_lists (h : ∀ j (hj : j < log.length), Lists b.image j (log.get ⟨j, hj⟩))
    (hr : Lists b.image log.length r) (j : ℕ) (hj : j < (log ++ [r]).length) :
    Lists b.image j ((log ++ [r]).get ⟨j, hj⟩) := by
  rw [List.get_eq_getElem]
  rcases Nat.lt_or_ge j log.length with hlt | hge
  · rw [List.getElem_append_left hlt]
    exact h j hlt
  · have hlast : j = log.length := by
      rw [List.length_append, List.length_singleton] at hj
      omega
    subst hlast
    rwa [List.getElem_concat_length rfl]

theorem readFd (h : Listing b p i log k) (hd : b.image.Directory) (hn : (32 : ℤ) ≤ nbytes) :
    ∃ k' value bytes, k.readFd b p i.val true nbytes = some (k', value, bytes) ∧
      bytes.length ≤ fileNameLength ∧ Lists b.image log.length ⟨nbytes, value, bytes⟩ ∧
      Listing b p i (log ++ [⟨nbytes, value, bytes⟩]) k' := by
  obtain ⟨⟨held, hf⟩, hp, ⟨inode, pos, hopen, hpos⟩, hlists⟩ := h
  obtain ⟨-, -, hfpos, hops⟩ := File.entry_eq_some hopen
  dsimp only at hfpos hops
  obtain ⟨pos', value, bytes, hread, hpos', hlen, hlist⟩ :=
    dirRead_lists (f := (k.pcb p).files i) hd (by rwa [hfpos]) hn
  refine ⟨k.setFile p i { (k.pcb p).files i with pos := pos' }, value, bytes, ?_, hlen, hlist,
    ?_⟩
  · simp only [Kernel.readFd, Kernel.lookup_open hopen, hops, hread, Bool.true_eq_false, if_false]
  · refine ⟨⟨held, hf.congr SameProcesses.setFile⟩, SameProcesses.setFile.live_iff.mpr hp,
      ⟨inode, pos', ?_, ?_⟩, append_lists hlists hlist⟩
    · rw [Kernel.opened_setFile, update_self]
      exact File.entry_setPos hopen pos'
    · rw [hpos', List.length_append, List.length_singleton]

theorem step (h : Listing b p i log k) (hd : b.image.Directory)
    (hl : Loadable b.image shellCommand) (hk : k.step b a = some k') (hstay : ¬ Ends p k a)
    (hclose : ¬ Closes p i.val k a) :
    (k.readOf b p i.val a = none ∧ Listing b p i log k') ∨
    ∃ r, k.readOf b p i.val a = some r ∧
      ((32 : ℤ) ≤ r.nbytes → Listing b p i (log ++ [r]) k') := by
  obtain ⟨⟨held, hf⟩, hp, ⟨inode, pos, hopen, hpos⟩, hlists⟩ := id h
  rcases hf.step_read hl hk hp hopen hstay hclose with
    ⟨hnone, hopen'⟩ | ⟨nbytes, value, bytes, hsome, hcall⟩
  · left
    obtain ⟨held', hf', -⟩ := hf.step hl hk
    exact ⟨hnone, ⟨held', hf'⟩, hf.step_live hl hk hp hstay, ⟨inode, pos, hopen', hpos⟩, hlists⟩
  · right
    refine ⟨_, hsome, fun hn ↦ ?_⟩
    obtain ⟨k₂, value', bytes', hcall₂, -, -, hlisting⟩ := h.readFd hd hn
    rw [hcall] at hcall₂
    obtain ⟨rfl, he⟩ := Prod.mk.inj (Option.some.inj hcall₂)
    obtain ⟨rfl, rfl⟩ := Prod.mk.inj he
    exact hlisting

theorem opened_now {filename : Option (ℕ → UInt8)} {dentry : Dentry}
    {held : Fin maxTerminals → List ℕ} (hf : Forest k held) (hp : k.live p)
    (hfound : Found b.image filename dentry .dir)
    (hopen : k.fdCall b p (.openFd filename) = some (k', (i.val : ℤ), [])) :
    Listing b p i [] k' := by
  have hlocal := Local.fdCall (S := {p}) rfl hopen
  refine ⟨⟨held, hf.congr hlocal.toSameProcesses⟩, hlocal.live_iff.mpr hp,
    ⟨dentry.inodeNum, 0, ?_, ?_⟩, fun j hj ↦ absurd hj (Nat.not_lt_zero j)⟩
  · obtain ⟨u, hserved, happly⟩ := Kernel.fdCall_served hopen
    rw [happly, hserved.eq_take hfound]
    exact update_self _ _ _
  · simp

end Listing

section Run

variable {b : Build} {m : Machine} {k k₀ k₁ k₂ : Kernel} {es es' : List Action} {p : ℕ}
  {i : Fin maxFiles}

/-- A program that reads a directory it has opened gets the entries one after the
other, and then nothing any more, whatever comes between the reads; and the name it
gets leads back to the entry. -/
theorem directory_listing {filename : Option (ℕ → UInt8)} {dentry : Dentry}
    (hd : b.image.Directory) (hb : Boots b m k₀) (hr : run (Kernel.step b) k₀ es = some k)
    (hp : k.live p) (hfound : Found b.image filename dentry .dir)
    (hopen : k.fdCall b p (.openFd filename) = some (k₁, (i.val : ℤ), []))
    (hrun : run (Kernel.step b) k₁ es' = some k₂)
    (hg : ∀ u a, Visits (Kernel.step b) k₁ es' u a → ¬ Ends p u a ∧ ¬ Closes p i.val u a)
    (hn : ∀ r ∈ k₁.reads b p i.val es', (fileNameLength : ℤ) ≤ r.nbytes) :
    (∀ j (hj : j < (k₁.reads b p i.val es').length),
      Lists b.image j ((k₁.reads b p i.val es').get ⟨j, hj⟩)) ∧
    ∀ nbytes, (fileNameLength : ℤ) ≤ nbytes → ∃ k₃ value bytes,
      k₂.fdCall b p (.readFd i.val true nbytes) = some (k₃, value, bytes) ∧
      Lists b.image (k₁.reads b p i.val es').length ⟨nbytes, value, bytes⟩ := by
  obtain ⟨held, hf⟩ := reachable_forest hb hr
  have hlisting := reads_invariant (I := Listing b p i)
    (fun log k a k' hI hG hk ↦ hI.step hd (boots_cases hb).1 hk hG.1 hG.2)
    (Listing.opened_now hf hp hfound hopen) hrun hg hn
  rw [List.nil_append] at hlisting
  refine ⟨hlisting.lists, fun nbytes hn ↦ ?_⟩
  obtain ⟨k₃, value, bytes, hcall, -, hlist, -⟩ := hlisting.readFd hd hn
  exact ⟨k₃, value, bytes, hcall, hlist⟩

end Run

section Sample

theorem dot_found :
    Found sampleImage (some (cstr (ascii "."))) (.of (ascii ".") 1 0) .dir :=
  ⟨_, rfl, rfl, rfl⟩

theorem directory_listing_sample : ∃ k k₁ k₂ r, Boots sampleBuild sampleMachine k ∧
    k.fdCall sampleBuild 0 (.openFd (some (cstr (ascii ".")))) = some (k₁, 2, []) ∧
    run (Kernel.step sampleBuild) k₁ [.fdCall (.readFd 2 true 33)] = some k₂ ∧
    k₁.reads sampleBuild 0 2 [.fdCall (.readFd 2 true 33)] = [r] ∧ Lists sampleImage 0 r ∧
    ∃ k₃ value bytes, k₂.fdCall sampleBuild 0 (.readFd 2 true 33) = some (k₃, value, bytes) ∧
      value = 5 ∧ bytes.take 5 = ascii "shell" := by
  obtain ⟨k, k₁, hb, hopen, hrunning⟩ := sample_opened dot_found
  have hr : run (Kernel.step sampleBuild) k [] = some k := rfl
  have hlisting := Listing.opened_now (i := 2) (boots_forest hb) (boots_live hb) dot_found hopen
  obtain ⟨k₂, value, bytes, hread, -⟩ := hlisting.readFd sampleImage_directory
    (show (32 : ℤ) ≤ 33 by decide)
  have hread' : k₁.readFd sampleBuild 0 2 true 33 = some (k₂, value, bytes) := hread
  obtain ⟨hstep, -, hreads⟩ := step_readFd hrunning hread'
  have hlog : k₁.reads sampleBuild 0 (2 : Fin maxFiles).val [.fdCall (.readFd 2 true 33)] =
      [⟨33, value, bytes⟩] := hreads []
  have hrun : run (Kernel.step sampleBuild) k₁ [.fdCall (.readFd 2 true 33)] = some k₂ :=
    (run_cons_of hstep).trans rfl
  have hall := directory_listing (i := 2) sampleImage_directory hb hr (boots_live hb) dot_found
    hopen hrun (fun u a hv ↦ by
      obtain ⟨rfl, rfl⟩ := visits_singleton hv
      exact ⟨fun h ↦ (nomatch h.2), fun h ↦ (nomatch h.2.1)⟩)
    (fun r hmem ↦ by
      rw [hlog] at hmem
      obtain rfl := List.mem_singleton.mp hmem
      exact show (32 : ℤ) ≤ 33 by decide)
  obtain ⟨hlists, hnext⟩ := hall
  obtain ⟨k₃, value', bytes', hcall, hlist⟩ := hnext 33 (show (32 : ℤ) ≤ 33 by decide)
  refine ⟨k, k₁, k₂, _, hb, hopen, hrun, hlog, ?_, k₃, value', bytes', hcall, ?_⟩
  · have hzero := hlists 0 (by rw [hlog]; exact Nat.zero_lt_one)
    simp only [List.get_eq_getElem, hlog, List.getElem_cons_zero] at hzero
    exact hzero
  · have hone : Lists sampleImage 1 ⟨33, value', bytes'⟩ := by
      rw [hlog] at hlist
      exact hlist
    have hvalue : value' = 5 := (hone.value (by decide)).1
    have hname := hone.name (by decide)
    refine ⟨hvalue, ?_⟩
    simp only [hvalue] at hname
    exact hname

end Sample

end ApollOS
