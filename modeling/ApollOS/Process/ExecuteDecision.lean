import ApollOS.Process.ExitStatus
import ApollOS.Process.ProgramFile

namespace ApollOS

open Function Runs FixedField

variable {b : Build} {m : Machine} {s : StackUse} {k k' k₀ : Kernel}
  {held : Fin maxTerminals → List ℕ} {es : List Action} {p : ℕ} {c : Command} {d : Dentry}
  {o : Outcome}

def Room (k : Kernel) : Prop := ((Finset.range 8).filter k.live).card < maxProcesses

/-- What `execute` is to do with a command: "exit" halts the caller, the name of a
program starts it if there is room, and nothing else starts anything. -/
structure Decides (b : Build) (k : Kernel) (c : Command) : Prop where
  exit : commandWord c.text = ascii "exit" → k.execute b (some c) = k.halt b 0
  starts : commandWord c.text ≠ ascii "exit" → Room k →
    ∀ d, Executable b.image (commandWord c.text) d → ∃ p mem, ¬ k.live p ∧
      k.execute b (some c) = some (k.installed b .syscall p (commandArgs c.text) mem,
        .started (le32 (cstr (fileContent b.image d.inodeNum)) 24))
  otherwise : commandWord c.text ≠ ascii "exit" →
    ¬ (Room k ∧ ∃ d, Executable b.image (commandWord c.text) d) →
    ∃ k' v, k.execute b (some c) = some (k', .returned v)

/-- Only the word "exit" begins with "exit", and a file that starts like a program and
has the first 32 bytes of the word for its name is a program of that name that fits. -/
structure Sound (b : Build) (k : Kernel) (c : Command) : Prop where
  exit : ascii "exit" <+: commandWord c.text → commandWord c.text = ascii "exit"
  program : ¬ ascii "exit" <+: commandWord c.text → Room k →
    ∀ d, ElfEntry b.image ((commandWord c.text).take fileNameLength) d →
      (commandWord c.text).length ≤ fileNameLength ∧ d.fileType = fileType ∧
      28 ≤ (fileContent b.image d.inodeNum).length ∧
      Fits b k.paging (fileContent b.image d.inodeNum).length

namespace Forest

theorem halt_ne_installed (hf : Forest k held) (hl : Loadable b.image shellCommand)
    {status : UInt8} {args : List UInt8} {mem : Memory} {entry : UInt32} :
    k.halt b status ≠ some (k.installed b .syscall p args mem, .started entry) := by
  intro h
  by_cases hone : k.current.numProcesses = 1
  · obtain ⟨q, mem', entry', -, hhalt⟩ := hf.halt_last hl hone status
    obtain ⟨hsame, -⟩ := Prod.mk.inj (Option.some.inj (hhalt.symm.trans h))
    have hcount := congrArg (fun k : Kernel ↦ k.current.numProcesses) hsame
    have hretired := Kernel.retired_numProcesses (k := k)
    simp only [Kernel.current, Kernel.installed, update_self] at hcount hretired hone
    have hcur : (k.retired.terminal k.retired.termCur).numProcesses =
        (k.terminal k.termCur).numProcesses - 1 := hretired
    have hback : k.retired.termCur = k.termCur := rfl
    simp only [hback] at hcount hcur
    omega
  · rw [hf.halt_nested hone status] at h
    cases (Prod.mk.inj (Option.some.inj h)).2

theorem not_decides (hf : Forest k held) (hl : Loadable b.image shellCommand)
    (hexit : ascii "exit" <+: commandWord c.text) (hne : commandWord c.text ≠ ascii "exit") :
    ¬ Decides b k c := by
  intro h
  have hexec := hf.execute_exit hl (isExit_iff.mpr hexit)
  by_cases hprog : Room k ∧ ∃ d, Executable b.image (commandWord c.text) d
  · obtain ⟨hroom, d, hd⟩ := hprog
    obtain ⟨p, mem, -, hstart⟩ := h.starts hne hroom d hd
    exact hf.halt_ne_installed hl (hexec.symm.trans hstart)
  · obtain ⟨k', v, hret⟩ := h.otherwise hne hprog
    obtain ⟨k₁, o, hhalt, -, hno⟩ := hf.halt_cases hl (.exit (isExit_iff.mpr hexit)) 0
    rw [hexec, hhalt] at hret
    exact hno v (Prod.mk.inj (Option.some.inj hret)).2

theorem execute_program (hf : Forest k held) (hw : b.image.WellFormed)
    (hexit : Kernel.isExit c = false) (hroom : Room k) (hprog : Program b.image c d)
    (hi : d.inodeNum < b.image.numInodes) :
    (Fits b k.paging (fileContent b.image d.inodeNum).length ∧ ∃ p mem, ¬ k.live p ∧
      k.execute b (some c) = some (k.installed b .syscall p (commandArgs c.text) mem,
        .started (entryPoint b.image d))) ∨
    ¬ Fits b k.paging (fileContent b.image d.inodeNum).length ∧ k.execute b (some c) = none := by
  have hcan := hf.toStacked.canExecute_iff_card.mpr hroom
  obtain ⟨p, hnew⟩ := hf.toStacked.exists_newPid hcan
  obtain ⟨hp, hfree, -⟩ := Kernel.getNewPid_eq_some hnew
  have hload : (storeBytes b (k.paging.remap virtualStart (userBlock p))
      (fileContent b.image d.inodeNum) executeStart k.console.mem).isSome ↔
      Fits b k.paging (fileContent b.image d.inodeNum).length := load_isSome_iff_fits hp
  rw [Kernel.execute_launch hexit, Kernel.launch_of_program hprog hcan hnew,
    readData_whole hw hi, Option.getD_some]
  cases hstore : storeBytes b (k.paging.remap virtualStart (userBlock p))
      (fileContent b.image d.inodeNum) executeStart k.console.mem with
  | none =>
    rw [hstore] at hload
    exact .inr ⟨fun hfits ↦ absurd (hload.mpr hfits) (by decide), rfl⟩
  | some mem =>
    rw [hstore] at hload
    exact .inl ⟨hload.mp rfl, p, mem, hfree, rfl⟩

theorem execute_nothing (hf : Forest k held) (hexit : Kernel.isExit c = false)
    (h : ¬ (Room k ∧ ∃ d, Program b.image c d)) :
    ∃ k' v, k.execute b (some c) = some (k', .returned v) := by
  rw [Kernel.execute_launch hexit]
  by_cases hprog : ∃ d, Program b.image c d
  · obtain ⟨d, hd⟩ := hprog
    have hfull : k.canExecute = false := by
      rw [← Bool.not_eq_true, hf.toStacked.canExecute_iff_card]
      exact fun hroom ↦ h ⟨hroom, d, hd⟩
    exact ⟨_, _, Kernel.launch_of_full hd hfull⟩
  · exact ⟨_, _, Kernel.launch_of_not_program fun d hd ↦ hprog ⟨d, hd⟩⟩

end Forest

/-- `execute` decides as it should exactly if the word is "exit" when it begins so,
and otherwise leads to a program that fits if it leads to anything that starts like
one. -/
theorem execute_decides_iff (hw : b.image.WellFormed) (hd : b.image.Directory)
    (hb : Boots b m k₀) (hr : run (Kernel.step b) k₀ es = some k) (c : Command) :
    Decides b k c ↔ Sound b k c := by
  obtain ⟨held, hf⟩ := reachable_forest hb hr
  have hl := (boots_cases hb).1
  by_cases hpre : ascii "exit" <+: commandWord c.text
  · by_cases hword : commandWord c.text = ascii "exit"
    · exact iff_of_true ⟨fun _ ↦ hf.execute_exit hl (isExit_iff.mpr hpre),
        fun hne ↦ absurd hword hne, fun hne ↦ absurd hword hne⟩
        ⟨fun _ ↦ hword, fun hno ↦ absurd hpre hno⟩
    · exact iff_of_false (hf.not_decides hl hpre hword) fun h ↦ hword (h.exit hpre)
  have hexit : Kernel.isExit c = false := by
    rw [← Bool.not_eq_true, isExit_iff]
    exact hpre
  have hword : commandWord c.text ≠ ascii "exit" := fun h ↦ hpre (h ▸ List.prefix_rfl)
  constructor
  · intro h
    refine ⟨fun hpre' ↦ absurd hpre' hpre, fun _ hroom d hent ↦ ?_⟩
    have hprog := (program_iff hw hd).mpr hent
    have hcases := hf.execute_program hw hexit hroom hprog hent.inode_lt
    by_cases hsome : ∃ d, Executable b.image (commandWord c.text) d
    · obtain ⟨d', hd'⟩ := hsome
      obtain rfl := Option.some.inj (hprog.name.symm.trans (hd'.program hw hd).name)
      obtain ⟨p, mem, -, hstart⟩ := h.starts hword hroom d hd'
      have hle : (commandWord c.text).length ≤ fileNameLength := by
        rw [← hd'.name_eq]
        exact length_content_le
      rcases hcases with ⟨hfits, -⟩ | ⟨-, hnone⟩
      · exact ⟨hle, hd'.regular, hd'.length, hfits⟩
      · rw [hnone] at hstart
        cases hstart
    · obtain ⟨k', v, hret⟩ := h.otherwise hword fun hboth ↦ hsome hboth.2
      rcases hcases with ⟨-, p, mem, -, hstart⟩ | ⟨-, hnone⟩
      · rw [hstart] at hret
        cases (Prod.mk.inj (Option.some.inj hret)).2
      · rw [hnone] at hret
        cases hret
  · intro h
    refine ⟨fun heq ↦ absurd heq hword, fun _ hroom d hex ↦ ?_, fun _ hno ↦ ?_⟩
    · have hprog := hex.program hw hd
      obtain ⟨-, -, hlen, hfits⟩ := h.program hpre hroom d ((program_iff hw hd).mp hprog)
      rcases hf.execute_program hw hexit hroom hprog hex.inode_lt with
        ⟨-, p, mem, hfree, hstart⟩ | ⟨hmisfit, -⟩
      · rw [entryPoint_eq hw hex.inode_lt hlen] at hstart
        exact ⟨p, mem, hfree, hstart⟩
      · exact absurd hfits hmisfit
    · refine hf.execute_nothing hexit ?_
      rintro ⟨hroom, d, hprog⟩
      have hent := (program_iff hw hd).mp hprog
      obtain ⟨hle, hreg, hlen, -⟩ := h.program hpre hroom d hent
      have hname := hent.name_eq
      rw [List.take_of_length_le hle] at hname
      exact hno ⟨hroom, d, ⟨hent.listed, hname, hent.inode_lt, hent.magic⟩, hreg, hlen⟩

section Sample

def exitsCommand : Command := ⟨ascii "exits", by decide, by decide⟩

def dotCommand : Command := ⟨ascii ".", by decide, by decide⟩

theorem boots_room (hb : Boots b m k) : Room k := by
  simp only [Room, boots_live_iff hb]
  decide

theorem sample_fits {pg : Paging} {n : ℕ} (hn : n ≤ 28) : Fits sampleBuild pg n := by
  intro v hv hlt
  simp only [virtualEnd, executeStart] at hv hlt
  omega

/-- "exits" halts the caller, and the directory is started like a program. -/
theorem exits_halts : ∃ k, Boots sampleBuild sampleMachine k ∧
    k.execute sampleBuild (some exitsCommand) = k.halt sampleBuild 0 ∧
    ¬ Decides sampleBuild k exitsCommand ∧
    (sampleImage.dentries 0).fileType = dirType ∧
    (∃ k₁ entry, k.execute sampleBuild (some dotCommand) = some (k₁, .started entry)) ∧
    ¬ Decides sampleBuild k dotCommand := by
  obtain ⟨k, hb⟩ := sample_boots
  have hf := boots_forest hb
  have hpre : ascii "exit" <+: commandWord exitsCommand.text := by decide
  have hprog : Program sampleImage dotCommand (sampleImage.dentries 0) := ⟨rfl, by decide⟩
  have hexit : Kernel.isExit dotCommand = false := by decide
  have hi : (sampleImage.dentries 0).inodeNum < sampleImage.numInodes := by decide
  rcases hf.execute_program (b := sampleBuild) sampleImage_wellFormed hexit (boots_room hb) hprog
      hi with
    ⟨-, p, mem, -, hstart⟩ | ⟨hmisfit, -⟩
  · refine ⟨k, hb, hf.execute_exit sampleImage_loadable (isExit_iff.mpr hpre),
      hf.not_decides sampleImage_loadable hpre (by decide), rfl, ⟨_, _, hstart⟩, fun h ↦ ?_⟩
    have hno : ¬ (Room k ∧ ∃ d, Executable sampleImage (commandWord dotCommand.text) d) := by
      rintro ⟨-, d, hex⟩
      have hname := (hex.program sampleImage_wellFormed sampleImage_directory).name
      obtain rfl := Option.some.inj (hprog.name.symm.trans hname)
      exact absurd hex.regular (by decide)
    obtain ⟨k', v, hret⟩ := h.otherwise (by decide) hno
    rw [hstart] at hret
    cases (Prod.mk.inj (Option.some.inj hret)).2
  · exact absurd (sample_fits (by decide)) hmisfit

theorem execute_decides_iff_sample : ∃ k, Boots sampleBuild sampleMachine k ∧
    Decides sampleBuild k shellCommand := by
  obtain ⟨k, hb⟩ := sample_boots
  have hr : run (Kernel.step sampleBuild) k [] = some k := rfl
  refine ⟨k, hb, (execute_decides_iff sampleImage_wellFormed sampleImage_directory hb hr
    shellCommand).mpr ⟨fun hpre ↦ absurd hpre (by decide), fun _ _ d hent ↦ ?_⟩⟩
  obtain ⟨i, hi, rfl⟩ := hent.listed
  have hone : i = 1 := sampleImage_directory.distinct i hi 1 (by decide) hent.name_eq
  subst hone
  exact ⟨by decide, rfl, by decide, sample_fits (by decide)⟩

end Sample

/-- On a run on which the kernel stacks hold out, a call of `execute` that comes back without having
started a program leaves the processes, the terminals, the page tables and the kernel stack as they
were, and what it leaves on its stack spares every PCB; and where it finds room for a process
`create_pcb` finds one, whoever calls it. -/
theorem execute_returned_unchanged (hb : Boots b m k₀) (hr : RunsOnStack b s k₀ es k)
    (command : Option Command) :
    (∀ k' v, k.executeWith b (k.currentPid (s.atPcb .execute)) command = some (k', .returned v) →
      k'.processesFlags = k.processesFlags ∧ k'.terminal = k.terminal ∧ k'.pcb = k.pcb ∧
        k'.paging = k.paging ∧ k'.esp0 = k.esp0) ∧
    SparesPcbs s k ∧
    (k.canExecute = true → k.createPcb.isSome) ∧
    (k.current.numProcesses = 1 → k.retired.canExecute = true → k.retired.createPcb.isSome) ∧
    ∀ term, ((k.leftFor term).begun term).canExecute = true →
      ((k.leftFor term).begun term).createPcb.isSome := by
  have hl := (boots_cases hb).1
  obtain ⟨held, hf⟩ := hr.forest hb
  have hs := hf.toStacked
  refine ⟨fun k' v h ↦ ?_, hr.onStack.sparesPcbs hf.running_lt, hs.createPcb_isSome,
    fun hone ↦ ?_, fun term ↦ ?_⟩
  · rw [hr.currentPid_eq hb (s.atPcb_le _)] at h
    obtain ⟨message, rfl⟩ := (hf.execute_returned hl h).1
    exact ⟨rfl, rfl, rfl, rfl, rfl⟩
  · obtain ⟨q, hq⟩ : ∃ q, held k.termCur = [q] := by
      rw [← List.length_eq_one_iff]
      have hcount := hf.numProcesses_eq
      omega
    exact (hs.retired_last hq).createPcb_isSome
  · exact (((hs.congr (.terminalSave k.termCur)).setCur term).begun term).createPcb_isSome

section Unchanged

def missingCommand : Command := ⟨ascii "nosuch", by decide, by decide⟩

theorem missingCommand_returns (p : ℕ) :
    k.executeWith sampleBuild p (some missingCommand) = some (k, .returned (-1)) := by
  have hlaunch : k.launch sampleBuild .syscall missingCommand = some (k, .returned (-1)) := by
    refine Kernel.launch_of_not_program fun d hd ↦ ?_
    have hnone : readDentryByName sampleImage (cstr (ascii "nosuch")) = none := by decide
    have hname : readDentryByName sampleImage (cstr (ascii "nosuch")) = some d := hd.name
    rw [hnone] at hname
    cases hname
  exact hlaunch

/-- After eighteen programs the stack of the shell has come so far down that the registers which
are saved for the next `execute` lie over the shell's PCB: with 1 in `%edi`, it has another parent
when an `execute` of an unknown name is back. -/
theorem execute_overwrites_pcb : ∃ k₀ k, Boots sampleBuild sampleMachine k₀ ∧
    run (Kernel.stepOnStack sampleBuild sampleUse) k₀ (rounds shellCommand 18) = some k ∧
    k.runningPid = 0 ∧ k.parentOf 0 = 0 ∧
    k.executeWith sampleBuild (k.currentPid (sampleUse.atPcb .execute)) (some missingCommand) =
      some (k, .returned (-1)) ∧
    ∃ p e saved, p.cpl = 3 ∧ p.reg .eax = Syscall.number .execute ∧
      Words.load p.mem (getPcb 0 + parentPidOffset.toUInt32) = 0 ∧
      Reaches (sampleBoardOn k.esp0) p e ∧
      Enters e (sampleSymbols.function .execute) [p.reg .ebx, p.reg .ecx, p.reg .edx] saved ∧
      ∀ q, Returns e q [p.reg .ebx, p.reg .ecx, p.reg .edx] saved →
        Reaches (sampleBoardOn k.esp0) q { p with
          eip := 132
          reg := update p.reg .eax (q.reg .eax)
          mem := q.mem } ∧
        Words.load q.mem (getPcb 0 + parentPidOffset.toUInt32) = 1 := by
  obtain ⟨k₀, hb⟩ := sample_boots
  have hf := boots_forest hb
  obtain ⟨k, hr, hrounded, -, -⟩ := sample_rounds hf (boots_canExecute hb)
    (boots_stackInv hb).2.top le_rfl
  have hpid : k₀.runningPid = 0 := boots_runningPid hb
  have hlive : k₀.live 0 := hpid ▸ hf.running_live hf.current
  have hparent : k.parentOf 0 = 0 :=
    (congrArg Pcb.parentPid (hrounded.pcb 0 hlive)).trans (boots_parentOf hb)
  have hesp : k.esp0 = 0x7FE19C := by
    have hdown := hrounded.esp0
    rw [(boots_stackInv hb).2.top, hpid] at hdown
    refine UInt32.toNat_inj.mp ?_
    have htop : (kernelStackTop 0).toNat = 8388604 := by decide
    have hdepth : (sampleBuild.depth .syscall).toNat = 432 := rfl
    rw [htop, hdepth] at hdown
    exact (show k.esp0.toNat = 8380828 by omega).trans (by decide)
  have hzero : Words.load (fun _ ↦ 0) (getPcb 0 + parentPidOffset.toUInt32) = 0 := by
    rw [Words.load]
    rfl
  let p : Processor := { sampleCaller 131 2 with
    reg := update (update (fun _ ↦ 0) .eax 2) .edi 1 }
  have hcode : (sampleBoardOn k.esp0).code p.eip = some (.int 0x80, 132) := rfl
  obtain ⟨e, words, hreach, henters, -, -, -, -, hback⟩ :=
    (sampleBoardOn_assembled k.esp0).calls_function (p := p) (by decide) hcode
      (show p.reg .eax = Syscall.number .execute from rfl)
  refine ⟨k₀, k, hb, hr, hrounded.runningPid.trans hpid, hparent, missingCommand_returns _, p, e, _,
    by decide, rfl, hzero, hreach, henters, fun q hq ↦ ⟨(hback q hq).2, ?_⟩⟩
  have hsaved := (hback q hq).1.1
  have hat : (sampleBoardOn k.esp0).esp0 - 48 = getPcb 0 + parentPidOffset.toUInt32 := by
    rw [show (sampleBoardOn k.esp0).esp0 = k.esp0 from rfl, hesp]
    decide
  rw [hat] at hsaved
  exact hsaved

theorem execute_returned_unchanged_sample : ∃ k₀ k k', Boots sampleBuild sampleMachine k₀ ∧
    run (Kernel.stepOnStack sampleBuild sampleUse) k₀ (rounds shellCommand 17) = some k ∧
    k.executeWith sampleBuild (k.currentPid (sampleUse.atPcb .execute)) (some missingCommand) =
      some (k', .returned (-1)) ∧ k'.terminal = k.terminal ∧ k'.pcb = k.pcb ∧
    k.createPcb.isSome := by
  obtain ⟨k₀, hb⟩ := sample_boots
  have hf := boots_forest hb
  have hcan := boots_canExecute hb
  obtain ⟨k, hr, hrounded, hv, hend⟩ := sample_rounds (n := 17) hf hcan
    (boots_stackInv hb).2.top (by decide)
  obtain ⟨hsame, -, hroom, -⟩ := execute_returned_unchanged hb
    (.of_visits hr (fun u a h ↦ (hv u a h).1) (hend (by decide))) (some missingCommand)
  obtain ⟨-, hterminal, hpcb, -⟩ := hsame k (-1) (missingCommand_returns _)
  exact ⟨k₀, k, k, hb, hr, missingCommand_returns _, hterminal, hpcb,
    hroom ((hrounded.canExecute hf).trans hcan)⟩

end Unchanged

end ApollOS
