import ApollOS.Files.FileData
import ApollOS.Foundation.FixedField
import ApollOS.Files.ReadLog
import Mathlib.Data.List.TakeWhile

namespace ApollOS

open Function Runs SlotTable Reader

/-- The bytes of a file as a program gets to see them. -/
def shownContent (img : Image) (inode : UInt32) : List UInt8 := (fileContent img inode).map sanitize

section Content

variable {img : Image} {inode offset : UInt32} {f : File} {nbytes : ℤ}

theorem sanitize_ne_zero (c : UInt8) : sanitize c ≠ 0 := by
  unfold sanitize
  split_ifs with h
  · decide
  · intro hzero
    subst hzero
    exact h (by decide)

theorem inode_lt_of_found (hw : img.WellFormed) {filename : Option (ℕ → UInt8)} {dentry : Dentry}
    (h : Found img filename dentry .file) : dentry.inodeNum < img.numInodes := by
  obtain ⟨name, -, hname, htype⟩ := h
  obtain ⟨i, hi, rfl⟩ := Option.map_eq_some_iff.mp hname
  apply hw.inode_lt i
  · exact List.mem_range.mp (List.mem_of_find?_eq_some hi)
  · unfold FileOps.ofType at htype
    split_ifs at htype with hrtc hdir hfile
    · cases htype
    · cases htype
    · exact hfile

theorem fileRead_eq (hw : img.WellFormed) (hi : f.inode < img.numInodes)
    (hpos : f.pos.toNat ≤ (fileContent img f.inode).length) (hn : 0 ≤ nbytes)
    (hn' : nbytes < 2 ^ 31) : ∃ bytes pos,
      fileRead img f nbytes = ({ f with pos := pos }, (bytes.length : ℤ), bytes) ∧
      bytes = chunk (shownContent img f.inode) f.pos.toNat nbytes.toNat ∧
      pos.toNat = f.pos.toNat + bytes.length := by
  have hread := readData_eq hw hi hpos hn hn'
  have hlen := hw.length_le f.inode.toNat (UInt32.lt_iff_toNat_lt.mp hi)
  have hle : (chunk (fileContent img f.inode) f.pos.toNat nbytes.toNat).length ≤
      (fileContent img f.inode).length - f.pos.toNat := by
    simp [chunk]
  rw [length_fileContent] at hle hpos
  rw [shownContent, chunk_map]
  generalize chunk (fileContent img f.inode) f.pos.toNat nbytes.toNat = c at hread hle
  refine ⟨c.map sanitize, f.pos + c.length.toUInt32, ?_, rfl, ?_⟩
  · have hfits : ¬ c.length ≥ 2 ^ 31 := by omega
    simp only [fileRead, hread, if_neg hfits, List.length_map]
  · rw [UInt32.toNat_add, List.length_map, Nat.toUInt32_eq, UInt32.toNat_ofNat']
    omega

end Content

def asked (log : List ReadCall) : ℕ := (log.map fun r ↦ r.nbytes.toNat).sum

/-- Process `p` has asked for `total` bytes of a file that it has open. -/
structure Reading (b : Build) (p : ℕ) (i : Fin maxFiles) (inode : UInt32) (total : ℕ)
    (k : Kernel) : Prop where
  forest : ∃ held, Forest k held
  live : k.live p
  opened : ∃ pos, k.opened p i = some ⟨inode, pos, .file⟩ ∧
    pos.toNat = position (shownContent b.image inode) total

section Run

variable {b : Build} {m : Machine} {k k' k₀ : Kernel} {a : Action} {es es' : List Action} {p : ℕ}
  {i : Fin maxFiles} {inode : UInt32} {total : ℕ} {nbytes : ℤ}

theorem Reading.readFd (h : Reading b p i inode total k) (hw : b.image.WellFormed)
    (hi : inode < b.image.numInodes) (hn : 0 ≤ nbytes) (hn' : nbytes < 2 ^ 31) :
    ∃ k' bytes, k.readFd b p i.val true nbytes = some (k', (bytes.length : ℤ), bytes) ∧
      bytes = chunk (shownContent b.image inode) total nbytes.toNat ∧
      Reading b p i inode (total + nbytes.toNat) k' := by
  obtain ⟨⟨held, hf⟩, hp, pos, hopen, hpos⟩ := h
  have hfile := File.entry_eq_some hopen
  obtain ⟨-, hinode, hfpos, hops⟩ := hfile
  dsimp only at hinode hfpos hops
  have hle : ((k.pcb p).files i).pos.toNat ≤
      (fileContent b.image ((k.pcb p).files i).inode).length := by
    rw [hfpos, hinode, hpos]
    simp [position, shownContent]
  obtain ⟨bytes, pos', hread, hbytes, hpos'⟩ :=
    fileRead_eq hw (by rwa [hinode]) hle hn hn'
  rw [hinode, hfpos, hpos, chunk_position] at hbytes
  refine ⟨k.setFile p i { (k.pcb p).files i with pos := pos' }, bytes, ?_, hbytes, ?_⟩
  · simp only [Kernel.readFd, Kernel.lookup_open hopen, hops, hread, Bool.true_eq_false, if_false]
  · refine ⟨⟨held, hf.congr SameProcesses.setFile⟩, SameProcesses.setFile.live_iff.mpr hp, pos',
      ?_, ?_⟩
    · rw [Kernel.opened_setFile, update_self]
      exact File.entry_setPos hopen pos'
    · rw [hpos', hfpos, hpos, hbytes, position_add]

theorem asked_append {log : List ReadCall} {r : ReadCall} :
    asked (log ++ [r]) = asked log + r.nbytes.toNat := by
  simp [asked]

theorem Reading.step (h : Reading b p i inode total k) (hw : b.image.WellFormed)
    (hi : inode < b.image.numInodes) (hl : Loadable b.image shellCommand)
    (hk : k.step b a = some k') (hstay : ¬ Ends p k a) (hclose : ¬ Closes p i.val k a) :
    (k.readOf b p i.val a = none ∧ Reading b p i inode total k') ∨
    ∃ r, k.readOf b p i.val a = some r ∧ (0 ≤ r.nbytes ∧ r.nbytes < 2 ^ 31 →
      r.value = r.bytes.length ∧
      r.bytes = chunk (shownContent b.image inode) total r.nbytes.toNat ∧
      Reading b p i inode (total + r.nbytes.toNat) k') := by
  obtain ⟨⟨held, hf⟩, hp, pos, hopen, hpos⟩ := id h
  rcases hf.step_read hl hk hp hopen hstay hclose with
    ⟨hnone, hopen'⟩ | ⟨nbytes, value, bytes, hsome, hcall⟩
  · left
    obtain ⟨held', hf', -⟩ := hf.step hl hk
    exact ⟨hnone, ⟨held', hf'⟩, hf.step_live hl hk hp hstay, pos, hopen', hpos⟩
  · right
    refine ⟨_, hsome, fun hn ↦ ?_⟩
    obtain ⟨k₂, bytes', hcall₂, hbytes, hreading⟩ := h.readFd hw hi hn.1 hn.2
    rw [hcall] at hcall₂
    obtain ⟨rfl, he⟩ := Prod.mk.inj (Option.some.inj hcall₂)
    obtain ⟨rfl, rfl⟩ := Prod.mk.inj he
    exact ⟨rfl, hbytes, hreading⟩

theorem Reading.run (h : Reading b p i inode total k) (hw : b.image.WellFormed)
    (hi : inode < b.image.numInodes) (hl : Loadable b.image shellCommand)
    (hr : run (Kernel.step b) k es = some k')
    (hg : ∀ u a, Visits (Kernel.step b) k es u a → ¬ Ends p u a ∧ ¬ Closes p i.val u a)
    (hn : ∀ r ∈ k.reads b p i.val es, 0 ≤ r.nbytes ∧ r.nbytes < 2 ^ 31) :
    Answers (shownContent b.image inode) total
      ((k.reads b p i.val es).map fun r ↦ (r.nbytes.toNat, r.bytes)) ∧
    (∀ r ∈ k.reads b p i.val es, r.value = r.bytes.length) ∧
    Reading b p i inode (total + asked (k.reads b p i.val es)) k' := by
  refine reads_invariant (l := []) (I := fun log k ↦
    Answers (shownContent b.image inode) total (log.map fun r ↦ (r.nbytes.toNat, r.bytes)) ∧
    (∀ r ∈ log, r.value = r.bytes.length) ∧ Reading b p i inode (total + asked log) k)
    (fun log k a k' hI hG hk ↦ ?_) ⟨.nil, fun r hr ↦ (nomatch hr), h⟩ hr hg hn
  obtain ⟨hans, hvalues, hreading⟩ := hI
  rcases hreading.step hw hi hl hk hG.1 hG.2 with ⟨hnone, h'⟩ | ⟨r, hsome, h'⟩
  · exact .inl ⟨hnone, hans, hvalues, h'⟩
  · refine .inr ⟨r, hsome, fun hn ↦ ?_⟩
    obtain ⟨hvalue, hbytes, h'⟩ := h' hn
    refine ⟨?_, fun s hs ↦ ?_, ?_⟩
    · have hsum : ((log.map fun r ↦ (r.nbytes.toNat, r.bytes)).map Prod.fst).sum = asked log := by
        rw [List.map_map]
        rfl
      rw [List.map_append, List.map_singleton, hbytes, ← hsum]
      exact hans.append
    · rcases List.mem_append.mp hs with hs | hs
      · exact hvalues s hs
      · rwa [List.mem_singleton.mp hs]
    · rwa [asked_append, ← Nat.add_assoc]

theorem terminalWrite_eq {bytes : List UInt8} (h : 0 ∉ bytes) (u : Kernel) :
    u.terminalWrite (cstr bytes) bytes.length =
      ({ u with console := u.console.puts bytes }, (bytes.length : ℤ)) := by
  have hall : (List.range bytes.length).map (cstr bytes) = bytes :=
    (FixedField.map_getD_range le_rfl).trans (List.take_length)
  have hstop : bytes.takeWhile (· ≠ 0) = bytes := by
    rw [List.takeWhile_eq_self_iff]
    intro c hc
    simp only [decide_eq_true_eq]
    intro hzero
    exact h (hzero ▸ hc)
  simp only [Kernel.terminalWrite, Int.toNat_natCast, hall, hstop]

theorem zero_notMem_shownContent : (0 : UInt8) ∉ shownContent b.image inode := by
  intro h
  obtain ⟨c, -, hc⟩ := List.mem_map.mp h
  exact sanitize_ne_zero c hc

theorem copyOut_eq {log : List ReadCall} (hvalue : ∀ r ∈ log, r.value = r.bytes.length)
    (hnul : ∀ r ∈ log, 0 ∉ r.bytes) (u : Kernel) :
    log.foldl (fun u r ↦ (u.terminalWrite (cstr r.bytes) r.value).1) u =
      { u with console := u.console.puts (log.map ReadCall.bytes).flatten } := by
  induction log generalizing u with
  | nil => rfl
  | cons r log ih =>
    have hwrite := terminalWrite_eq (hnul r List.mem_cons_self) u
    rw [List.foldl_cons, hvalue r List.mem_cons_self, hwrite,
      ih (fun s hs ↦ hvalue s (List.mem_cons_of_mem r hs))
        (fun s hs ↦ hnul s (List.mem_cons_of_mem r hs))]
    simp [Console.puts]

theorem Reading.opened_now {filename : Option (ℕ → UInt8)} {dentry : Dentry}
    {held : Fin maxTerminals → List ℕ} (hf : Forest k held) (hp : k.live p)
    (hfound : Found b.image filename dentry .file)
    (hopen : k.fdCall b p (.openFd filename) = some (k', (i.val : ℤ), [])) :
    Reading b p i dentry.inodeNum 0 k' := by
  have hlocal := Local.fdCall (S := {p}) rfl hopen
  refine ⟨⟨held, hf.congr hlocal.toSameProcesses⟩, hlocal.live_iff.mpr hp, 0, ?_, ?_⟩
  · obtain ⟨u, hserved, happly⟩ := Kernel.fdCall_served hopen
    rw [happly, hserved.eq_take hfound]
    exact update_self _ _ _
  · simp [position]

/-- What a process reads from a file, however the requests are cut and whatever comes
between them, is the prefix of the file that it has asked for; every call returns
what it has stored, at the end of the file nothing; and as there is no NUL in it, all
of it is printed when it is written to the terminal. -/
theorem file_reads {filename : Option (ℕ → UInt8)} {dentry : Dentry} {k₁ k₂ : Kernel}
    (hw : b.image.WellFormed) (hb : Boots b m k₀) (hr : run (Kernel.step b) k₀ es = some k)
    (hp : k.live p) (hfound : Found b.image filename dentry .file)
    (hopen : k.fdCall b p (.openFd filename) = some (k₁, (i.val : ℤ), []))
    (hrun : run (Kernel.step b) k₁ es' = some k₂)
    (hg : ∀ u a, Visits (Kernel.step b) k₁ es' u a → ¬ Ends p u a ∧ ¬ Closes p i.val u a)
    (hn : ∀ r ∈ k₁.reads b p i.val es', 0 ≤ r.nbytes ∧ r.nbytes < 2 ^ 31) :
    ((k₁.reads b p i.val es').map ReadCall.bytes).flatten =
      (shownContent b.image dentry.inodeNum).take (asked (k₁.reads b p i.val es')) ∧
    (∀ r ∈ k₁.reads b p i.val es', r.value = r.bytes.length ∧ 0 ∉ r.bytes) ∧
    (∀ nbytes, 0 ≤ nbytes → nbytes < 2 ^ 31 → ∃ k₃ bytes,
      k₂.fdCall b p (.readFd i.val true nbytes) = some (k₃, (bytes.length : ℤ), bytes) ∧
      bytes = ((shownContent b.image dentry.inodeNum).drop
        (asked (k₁.reads b p i.val es'))).take nbytes.toNat ∧
      ((fileContent b.image dentry.inodeNum).length ≤ asked (k₁.reads b p i.val es') →
        bytes = [])) ∧
    ∀ u : Kernel, (k₁.reads b p i.val es').foldl
        (fun u r ↦ (u.terminalWrite (cstr r.bytes) r.value).1) u =
      { u with
        console := u.console.puts
          ((shownContent b.image dentry.inodeNum).take (asked (k₁.reads b p i.val es'))) } := by
  obtain ⟨⟨held, hf⟩, -⟩ := StandardForest.reachable hb hr
  have hi := inode_lt_of_found hw hfound
  obtain ⟨hans, hvalue, hend⟩ :=
    (Reading.opened_now hf hp hfound hopen).run hw hi (boots_cases hb).1 hrun hg hn
  have hnul : ∀ r ∈ k₁.reads b p i.val es', 0 ∉ r.bytes := by
    intro r hr hzero
    exact zero_notMem_shownContent (hans.mem (List.mem_map_of_mem hr) hzero)
  have hflat : ((k₁.reads b p i.val es').map ReadCall.bytes).flatten =
      (shownContent b.image dentry.inodeNum).take (asked (k₁.reads b p i.val es')) := by
    have hchunks := hans.flatten
    rw [List.map_map, List.map_map] at hchunks
    exact hchunks
  rw [Nat.zero_add] at hend
  refine ⟨hflat, fun r hr ↦ ⟨hvalue r hr, hnul r hr⟩, fun nbytes hn₀ hn₁ ↦ ?_, fun u ↦ ?_⟩
  · obtain ⟨k₃, bytes, hcall, hbytes, -⟩ := hend.readFd hw hi hn₀ hn₁
    refine ⟨k₃, bytes, hcall, hbytes, fun hle ↦ ?_⟩
    rw [hbytes]
    apply chunk_eq_nil
    rwa [shownContent, List.length_map]
  · rw [← hflat]
    exact copyOut_eq hvalue hnul u

section Sample

/-- Two bytes are read, something else is printed, and the rest is read with what there is room
for. -/
def readsInPieces : List Action :=
  [.fdCall (.readFd 2 true 2), .console (.output 120), .fdCall (.readFd 2 true 1),
    .fdCall (.readFd 2 true 100)]

theorem file_reads_sample : ∃ k k₁ k₂, Boots sampleBuild sampleMachine k ∧
    k.fdCall sampleBuild 0 (.openFd (some (cstr (ascii "notes")))) = some (k₁, 2, []) ∧
    run (Kernel.step sampleBuild) k₁ readsInPieces = some k₂ ∧
    (k₁.reads sampleBuild 0 2 readsInPieces).map ReadCall.nbytes = [2, 1, 100] ∧
    ((k₁.reads sampleBuild 0 2 readsInPieces).map ReadCall.bytes).flatten = ascii "a b\n" := by
  obtain ⟨k, k₁, hb, hopen, hrunning⟩ := sample_opened notes_found
  have hr : run (Kernel.step sampleBuild) k [] = some k := rfl
  have hw := sampleImage_wellFormed
  have hi : (Dentry.of (ascii "notes") 2 1).inodeNum < sampleBuild.image.numInodes := by decide
  have hreading := Reading.opened_now (i := 2) (boots_forest hb) (boots_live hb) notes_found hopen
  obtain ⟨u₁, bytes₁, hread₁, -, hreading₁⟩ := hreading.readFd hw hi (show (0 : ℤ) ≤ 2 by decide)
    (by decide)
  have hcall₁ : k₁.readFd sampleBuild 0 2 true 2 = some (u₁, (bytes₁.length : ℤ), bytes₁) := hread₁
  obtain ⟨hstep₁, hrun₁, hlog₁⟩ := step_readFd hrunning hcall₁
  let u₂ : Kernel := { u₁ with console := u₁.console.putc 120 }
  have hstep₂ : u₁.step sampleBuild (.console (.output 120)) = some u₂ := rfl
  have hrun₂ : u₂.runningPid = 0 := hrun₁
  have hreading₂ := (hreading₁.step hw hi sampleImage_loadable hstep₂
    (fun h ↦ (nomatch h.2)) fun h ↦ (nomatch h.2.1)).resolve_right fun ⟨_, h, _⟩ ↦ nomatch h
  obtain ⟨u₃, bytes₃, hread₃, -, hreading₃⟩ := hreading₂.2.readFd hw hi
    (show (0 : ℤ) ≤ 1 by decide) (by decide)
  have hcall₃ : u₂.readFd sampleBuild 0 2 true 1 = some (u₃, (bytes₃.length : ℤ), bytes₃) := hread₃
  obtain ⟨hstep₃, hrun₃, hlog₃⟩ := step_readFd hrun₂ hcall₃
  obtain ⟨u₄, bytes₄, hread₄, -, -⟩ := hreading₃.readFd hw hi (show (0 : ℤ) ≤ 100 by decide)
    (by decide)
  have hcall₄ : u₃.readFd sampleBuild 0 2 true 100 = some (u₄, (bytes₄.length : ℤ), bytes₄) :=
    hread₄
  obtain ⟨hstep₄, -, hlog₄⟩ := step_readFd hrun₃ hcall₄
  have hrun : run (Kernel.step sampleBuild) k₁ readsInPieces = some u₄ := by
    rw [readsInPieces, run_cons_of hstep₁, run_cons_of hstep₂, run_cons_of hstep₃,
      run_cons_of hstep₄]
    rfl
  have hlog : k₁.reads sampleBuild 0 2 readsInPieces =
      [⟨2, bytes₁.length, bytes₁⟩, ⟨1, bytes₃.length, bytes₃⟩, ⟨100, bytes₄.length, bytes₄⟩] := by
    rw [readsInPieces, hlog₁, reads_cons_none hstep₂ rfl, hlog₃, hlog₄]
    rfl
  have hflat : ((k₁.reads sampleBuild 0 2 readsInPieces).map ReadCall.bytes).flatten =
      (shownContent sampleImage 1).take (asked (k₁.reads sampleBuild 0 2 readsInPieces)) := by
    refine (file_reads (i := 2) hw hb hr (boots_live hb) notes_found hopen hrun
      (fun u a hv ↦ ?_) (fun r hmem ↦ ?_)).1
    · have hmem := hv.mem
      simp only [readsInPieces, List.mem_cons, List.not_mem_nil, or_false] at hmem
      rcases hmem with rfl | rfl | rfl | rfl
      all_goals exact ⟨fun h ↦ (nomatch h.2), fun h ↦ (nomatch h.2.1)⟩
    · have hmem' : r ∈ k₁.reads sampleBuild 0 2 readsInPieces := hmem
      simp only [hlog, List.mem_cons, List.not_mem_nil, or_false] at hmem'
      rcases hmem' with rfl | rfl | rfl
      all_goals norm_num
  refine ⟨k, k₁, u₄, hb, hopen, hrun, by rw [hlog]; rfl, ?_⟩
  rw [hflat, hlog]
  exact (show (shownContent sampleImage 1).take 103 = ascii "a b\n" by decide)

end Sample

end Run

end ApollOS
