import Glm52.ServedImages

/-! # Repeated starts

A start that has been served settles the engine's files: later starts change none of them,
and write only the result of the b12x probe (`served_settles`).  A start that has failed
fails again when it is repeated, with one exception: what the last phase of the sparse
script writes is compiled only by the start that writes it (`retry_passes_iff`). -/
namespace Glm52.RuntimePatch
open TextReplace FilePatch SingleFilePatch

section
variable {compiles : ByteArray → Bool}

/-! ### Later starts -/

theorem runStarts_settled {phases : List Phase} {starts : List Start} {t : Tree}
    (h : ∀ phase ∈ phases, Settled compiles t.files phase)
    (hstarts : ∀ start ∈ starts, start.script.phases ⊆ phases) :
    (runStarts compiles starts t).files = t.files := by
  induction starts generalizing t with
  | nil => rfl
  | cons start starts ih =>
    rw [List.forall_mem_cons] at hstarts
    have hfiles : (start.run compiles t).files = t.files :=
      (runPhases_of_settled fun phase hphase =>
        h phase (hstarts.1 (List.mem_of_mem_take hphase))).1
    exact (ih (hfiles ▸ h : ∀ phase ∈ phases, Settled compiles (start.run compiles t).files phase)
      hstarts.2).trans hfiles

/-- **A start that is served settles the container.**  Whatever it was before, once a script
has run through, later starts of it and of the scripts it includes change no engine file and
leave the package marker, however many there are and wherever they are interrupted; the
result of the probe is the served start's or the one of a later start that had b12x.  Each
of these scripts is through again as soon as b12x is there, and then leaves the result of
its own probe. -/
theorem served_settles {script : Script} {env : Env} {t t' : Tree}
    (hserved : runPhases compiles env script.phases t = (none, t')) {later : List Start}
    (hlater : ∀ start ∈ later, start.script.phases ⊆ script.phases) :
    let u := runStarts compiles later t'
    u.files = t'.files ∧ u.opsInit = t'.opsInit ∧
      (u.b12xEnv = t'.b12xEnv ∨ ∃ start ∈ later, start.env.installs = true ∧
        u.b12xEnv = some (writeText start.env.probeResult)) ∧
      ∀ script' : Script, script'.phases ⊆ script.phases → ∀ env' : Env, env'.installs = true →
        ∃ t'', runPhases compiles env' script'.phases u = (none, t'') ∧
          t''.files = t'.files ∧ t''.opsInit = t'.opsInit ∧
          t''.b12xEnv = if .b12x ∈ script'.phases then some (writeText env'.probeResult)
            else u.b12xEnv := by
  intro u
  have hsettled := settled_of_runPhases hserved
  have hmarker : .a1 ∈ script.phases → t'.opsInit.isSome := isSome_opsInit_of_runPhases hserved
  have hfiles : u.files = t'.files := runStarts_settled hsettled hlater
  have hops : u.opsInit = t'.opsInit :=
    runStarts_opsInit fun start hstart ha1 => hmarker (hlater start hstart ha1)
  refine ⟨hfiles, hops, runStarts_b12xEnv later t', fun script' hsub env' henv => ?_⟩
  have hsettled' : ∀ phase ∈ script'.phases, Settled compiles u.files phase := fun phase hphase =>
    hfiles ▸ hsettled phase (hsub hphase)
  have hkeeps : (runPhases compiles env' script'.phases u).2.files = u.files ∧ _ :=
    runPhases_of_settled hsettled'
  have hrun : runPhases compiles env' script'.phases u =
      (none, (runPhases compiles env' script'.phases u).2) := Prod.ext (hkeeps.2 henv) rfl
  have hops' : (runPhases compiles env' script'.phases u).2.opsInit = u.opsInit :=
    runPhases_opsInit fun ha1 => hops ▸ hmarker (hsub ha1)
  refine ⟨_, hrun, hkeeps.1.trans hfiles, hops'.trans hops, ?_⟩
  by_cases hb : Phase.b12x ∈ script'.phases
  · rw [if_pos hb, b12xEnv_of_runPhases hrun hb]
  · rw [if_neg hb]
    exact (runPhases_b12xEnv env' script'.phases u).resolve_right fun h => hb h.1

/-- A container is served, then started without b12x, and then served again. -/
theorem served_settles_engineImage :
    ∃ t' t'', runPhases (fun _ => true) wheelEnv Script.sparse.phases ⟨engineImage, none, none⟩ =
        (none, t') ∧
      runPhases (fun _ => true) ⟨true, false, false, false⟩ Script.sparse.phases
        (runStarts (fun _ => true) [⟨.sparse, bareEnv, 5⟩] t') = (none, t'') ∧
      t''.files = t'.files ∧ t''.opsInit = t'.opsInit ∧ t''.b12xEnv ≠ t'.b12xEnv := by
  obtain ⟨t', hserved⟩ := fits_engineImage.served pristine_engineImage
    (by decide : Script.sparse ≠ .dcp) (rfl : wheelEnv.installs = true)
  have hlater : ∀ start ∈ [(⟨.sparse, bareEnv, 5⟩ : Start)],
      start.script.phases ⊆ Script.sparse.phases := by simp
  obtain ⟨-, -, -, hagain⟩ := served_settles hserved hlater
  obtain ⟨t'', hrun, hfiles, hops, hprobe⟩ :=
    hagain .sparse (List.Subset.refl _) ⟨true, false, false, false⟩ rfl
  refine ⟨t', t'', hserved, hrun, hfiles, hops, fun hsame => ?_⟩
  rw [hprobe, if_pos (by decide), b12xEnv_of_runPhases hserved (by decide)] at hsame
  have hread := congrArg readText (Option.some.inj hsame)
  rw [readText_writeText (by decide), readText_writeText (by decide)] at hread
  exact absurd hread (by decide)

/-! ### Repeating a start that has failed -/

/-- The failure that a repeated start does not see: `nvfp4.py` was written, and does not
compile. -/
def Masked (phase : Phase) (halt : Halt) : Prop :=
  phase = .moeBackend ∧ halt = .python (.raised "PyCompileError")

/-- Only the scripts that compile `sparse_attn_indexer.py` at every start reach A4. -/
theorem a2a3_mem_of_a4 {script : Script} {pre post : List Phase}
    (h : script.phases = pre ++ .a4 :: post) : .a2a3 ∈ pre := by
  have hmem : Phase.a4 ∈ script.phases := by simp [h]
  have hhead : [Phase.a1, .a2a3] <+: script.phases := by
    cases script with
    | dcp => exact absurd hmem (by decide)
    | sparse | sparseDcp => exact ⟨_, rfl⟩
  rw [h] at hhead
  rcases pre with _ | ⟨a, _ | ⟨b, pre⟩⟩
  · simp at hhead
  · simp at hhead
  · simp only [List.cons_append, List.cons_prefix_cons] at hhead
    simp [← hhead.2.1]

/-- A patcher does not compile. -/
theorem runSteps_ne_compile {steps : List Step} {files : Files} {exit : Exit}
    (h : (runSteps steps files).1 = some exit) : exit ≠ .raised "PyCompileError" := by
  induction steps generalizing files with
  | nil => simp [runSteps] at h
  | cons s steps ih =>
    rw [runSteps] at h
    cases hrun : s.patcher.run (files (fileOf s)) with
    | error exit' =>
      simp only [hrun, Option.some.injEq] at h
      subst h
      unfold Patcher.run at hrun
      split at hrun
      · obtain rfl := Except.error.inj hrun
        decide
      · split at hrun <;> cases hrun
        exact Exit.noConfusion
    | ok new =>
      simp only [hrun] at h
      exact ih h

/-- The failure that a repeated process does not see: it has written a file that does not
compile, and now skips it. -/
def Skipped (phase : Phase) (exit : Exit) : Prop :=
  phase.check = .whenWritten ∧ exit = .raised "PyCompileError"

/-- A process that has failed and runs again on the files it has left. -/
theorem python_again {phase : Phase} {files files' : Files} {exit : Exit}
    (h : python compiles phase files = (some exit, files')) :
    (¬ Skipped phase exit ∧ python compiles phase files' = (some exit, files')) ∨
      (Skipped phase exit ∧ python compiles phase files' = (none, files') ∧
        ∃ s ∈ phase.steps, compiles (files' (fileOf s)) = false) := by
  rcases python_eq_some h with hsteps | ⟨hsteps, rfl, s, hs, hcompile⟩
  · refine Or.inl ⟨fun hskipped => ?_, ?_⟩
    · exact runSteps_ne_compile (congrArg Prod.fst hsteps) hskipped.2
    · unfold python
      rw [runSteps_again hsteps]
  · have hmarked : ∀ s ∈ phase.steps, Marked files' s := by
      have hall := marked_of_runSteps (congrArg Prod.fst hsteps)
      rwa [hsteps] at hall
    have hagain := runSteps_of_marked hmarked
    cases hcheck : phase.check with
    | always =>
      refine Or.inl ⟨fun hskipped => by simp [Skipped, hcheck] at hskipped, ?_⟩
      have hfails : ((toCompile .always phase.steps files').all fun s =>
          compiles (files' (fileOf s))) = false := by
        rw [hcheck] at hs
        exact List.all_eq_false.mpr ⟨s, hs, by simp [hcompile]⟩
      unfold python
      simp [hagain, hcheck, hfails]
    | whenWritten =>
      rw [hcheck, toCompile, List.mem_filter] at hs
      refine Or.inr ⟨⟨hcheck, rfl⟩, ?_, s, hs.1, hcompile⟩
      exact (Settled.mk hmarked (fun h => by simp [hcheck] at h)).python_eq
    | never => simp [hcheck, toCompile] at hs

/-- What the last phase of the sparse script does, no other phase compiles. -/
theorem Settled.moeBackend {phase : Phase} {files : Files} (h : Settled compiles files phase) :
    Settled compiles (runSteps Phase.moeBackend.steps files).2 phase := by
  refine ⟨fun s hs => runSteps_keeps (h.marked s hs), fun hcheck s hs => ?_⟩
  have hframe : ∀ s' ∈ Phase.moeBackend.steps, fileOf s' ≠ fileOf s := by
    cases phase <;> simp_all [Phase.steps, Phase.check] <;> rcases hs with rfl | rfl <;> decide
  rw [runSteps_frame hframe]
  exact h.compiled hcheck s hs

/-- With the phases before it through, a phase that compiles what it has written finds its
files compiled, unless it is the last one of the sparse script. -/
theorem eq_moeBackend_of_not_compiled {script : Script} {env : Env} {pre post : List Phase}
    {phase : Phase} {t u : Tree} (hscript : script.phases = pre ++ phase :: post)
    (hpre : runPhases compiles env pre t = (none, u)) (hcheck : phase.check = .whenWritten)
    {s : Step} (hs : s ∈ phase.steps) (hcompile : compiles (u.files (fileOf s)) = false) :
    phase = .moeBackend := by
  cases phase with
  | moeBackend => rfl
  | a4 =>
    -- A2/A3 compile what A4 has left
    have hfirst := settled_of_runPhases hpre _ (a2a3_mem_of_a4 hscript)
    obtain rfl : s = .sparseA4 := by simpa [Phase.steps] using hs
    have hsai := hfirst.compiled rfl .sparseA3 (by simp [Phase.steps])
    exact absurd (hsai.symm.trans hcompile) (by decide)
  | a1 | a2a3 | b12x | itemA | itemB | itemC => simp [Phase.check] at hcheck

/-- Where a script has failed behind A1, the marker is there. -/
theorem isSome_opsInit_of_failed {env : Env} {pre : List Phase} {phase : Phase} {t u t' : Tree}
    {halt : Halt} (hpre : runPhases compiles env pre t = (none, u))
    (hrun : phase.run compiles env u = (some halt, t')) (ha1 : .a1 ∈ pre ++ [phase]) :
    t'.opsInit.isSome := by
  rcases List.mem_append.mp ha1 with hmem | hlast
  · have hmarker := isSome_opsInit_of_runPhases hpre hmem
    have hkept : (phase.run compiles env u).2.opsInit = u.opsInit :=
      Phase.run_opsInit fun _ => hmarker
    rw [hrun] at hkept
    exact hkept ▸ hmarker
  · rw [← List.mem_singleton.mp hlast] at hrun
    simp [Phase.run] at hrun

/-- **Repeating a start that has failed.**  When a script has ended in some phase, other than
for want of b12x, and runs again with b12x there, it changes no engine file up to and
including that phase, leaves the package marker, and writes the result of its own probe, if
anything; and it gets past the phase if and only if the failure was that the new `nvfp4.py`
does not compile. -/
theorem retry_passes_iff {script : Script} {env : Env} {t t' : Tree} {phase : Phase} {halt : Halt}
    (hfailed : runPhases compiles env script.phases t = (some (phase, halt), t'))
    (hphase : phase ≠ .b12x) {env' : Env} (henv : env'.installs = true) :
    ∃ pre post, script.phases = pre ++ phase :: post ∧
      (runPhases compiles env' (pre ++ [phase]) t').2.files = t'.files ∧
      (runPhases compiles env' (pre ++ [phase]) t').2.opsInit = t'.opsInit ∧
      ((runPhases compiles env' (pre ++ [phase]) t').2.b12xEnv = t'.b12xEnv ∨
        (.b12x ∈ pre ∧ (runPhases compiles env' (pre ++ [phase]) t').2.b12xEnv =
          some (writeText env'.probeResult))) ∧
      ((runPhases compiles env' (pre ++ [phase]) t').1 = none ↔ Masked phase halt) := by
  obtain ⟨pre, post, u, hscript, hpre, hrun⟩ := runPhases_eq_some hfailed
  have hops : (runPhases compiles env' (pre ++ [phase]) t').2.opsInit = t'.opsInit :=
    runPhases_opsInit fun ha1 => isSome_opsInit_of_failed hpre hrun ha1
  have hprobe : (runPhases compiles env' (pre ++ [phase]) t').2.b12xEnv = t'.b12xEnv ∨
      (.b12x ∈ pre ∧ (runPhases compiles env' (pre ++ [phase]) t').2.b12xEnv =
        some (writeText env'.probeResult)) := by
    refine (runPhases_b12xEnv env' (pre ++ [phase]) t').imp_right fun h => ⟨?_, h.2.2⟩
    exact (List.mem_append.mp h.1).resolve_right fun hb => hphase (List.mem_singleton.mp hb).symm
  suffices hretry : (runPhases compiles env' (pre ++ [phase]) t').2.files = t'.files ∧
      ((runPhases compiles env' (pre ++ [phase]) t').1 = none ↔ Masked phase halt) from
    ⟨pre, post, hscript, hretry.1, hops, hprobe, hretry.2⟩
  obtain ⟨exit, rfl, hexit⟩ := Phase.run_eq_some hphase (congrArg Prod.fst hrun)
  have hfiles : t'.files = (runSteps phase.steps u.files).2 := by
    rw [← Phase.run_files env, hrun]
  have hpython : python compiles phase u.files = (some exit, t'.files) :=
    Prod.ext hexit (by rw [python_files, hfiles])
  have hsettled := settled_of_runPhases hpre
  -- the marks of the phases before outlast the failure, so these phases write nothing
  have hquiet : (runPhases compiles env' pre t').2.files = t'.files := by
    refine runPhases_of_marked fun phase' hphase' s hs => ?_
    rw [hfiles]
    exact runSteps_keeps ((hsettled phase' hphase').marked s hs)
  have hmasked : Masked phase (.python exit) → (runPhases compiles env' pre t').1 = none := by
    rintro ⟨rfl, -⟩
    refine (runPhases_of_settled fun phase' hphase' => ?_).2 henv
    rw [hfiles]
    exact (hsettled phase' hphase').moeBackend
  rw [runPhases_append]
  rcases hahead : runPhases compiles env' pre t' with ⟨_ | x, v⟩
  · rw [hahead] at hquiet
    have hv : v.files = t'.files := hquiet
    have hsame : (phase.run compiles env' v).2.files = (python compiles phase t'.files).2 := by
      rw [Phase.run_files, python_files, hv]
    have hpass : (phase.run compiles env' v).1 = none ↔
        (python compiles phase t'.files).1 = none := by
      rw [Phase.run_eq_none_iff, hv]
      exact and_iff_right fun hb => absurd hb hphase
    simp only [runPhases_singleton, Option.map_eq_none_iff, hpass, hsame]
    rcases python_again hpython with ⟨hnot, hagain⟩ | ⟨hskipped, hagain, s, hs, hcompile⟩
    · refine ⟨congrArg Prod.snd hagain, iff_of_false (by simp [hagain]) ?_⟩
      rintro ⟨rfl, hhalt⟩
      exact hnot ⟨rfl, Halt.python.inj hhalt⟩
    · refine ⟨congrArg Prod.snd hagain, iff_of_true (congrArg Prod.fst hagain) ?_⟩
      rw [← hv] at hcompile
      exact ⟨eq_moeBackend_of_not_compiled hscript hahead hskipped.1 hs hcompile,
        congrArg Halt.python hskipped.2⟩
  · rw [hahead] at hquiet hmasked
    exact ⟨hquiet, iff_of_false (by simp) fun h => by simpa using hmasked h⟩

/-- A compiler that rejects what the last phase writes. -/
def rejectsMoeBackend (content : ByteArray) : Bool :=
  match readText content with
  | none => false
  | some src => !occurs Step.sparseC.patcher.sentinel src

theorem rejectsMoeBackend_of_carries {content : ByteArray}
    (h : Step.sparseC.patcher.Carries content) : rejectsMoeBackend content = false := by
  obtain ⟨src, hread, hsent⟩ := h
  simp only [rejectsMoeBackend, hread, occurs_iff.mpr hsent, Bool.not_true]

theorem rejectsMoeBackend_of_patchable {p : Patcher} {content : ByteArray}
    (h : p.Patchable content) (hspares : p.Spares Step.sparseC.patcher)
    (hnot : ¬ Step.sparseC.patcher.Carries content) :
    rejectsMoeBackend (p.edited content) = true := by
  obtain ⟨src, -, -, hedited⟩ := h.readText_edited
  have hno : ¬ Step.sparseC.patcher.sentinel <:+: applyEdits p.edits src := fun hsent =>
    hnot (h.carries_of_spares hspares ⟨_, hedited, hsent⟩)
  simp only [rejectsMoeBackend, hedited, occurs_eq_false_iff.mpr hno, Bool.not_false]

/-- The first start of the sample with that compiler: it fails in its last phase. -/
theorem Fits.masked {image : Files} (h : ∀ f, Installs ((chain f).map Step.patcher) (image f))
    {env : Env} (henv : env.installs = true)
    (ha2 : compiles (Step.sparseA2.patcher.edited (image .deepGemm)) = true)
    (ha3 : compiles (Step.sparseA3.patcher.edited (image .sai)) = true)
    (ha4 : compiles (Step.sparseA4.patcher.edited
      (Step.sparseA3.patcher.edited (image .sai))) = true)
    (hc : compiles (Step.sparseC.patcher.edited (image .nvfp4)) = false) :
    ∃ t', runPhases compiles env Script.sparse.phases ⟨image, none, none⟩ =
      (some (.moeBackend, .python (.raised "PyCompileError")), t') := by
  have h2 : Step.sparseA2.patcher.Patchable (image .deepGemm) := (h .deepGemm).1
  have h3 : Step.sparseA3.patcher.Patchable (image .sai) := (h .sai).1
  have h4 : Step.sparseA4.patcher.Patchable (Step.sparseA3.patcher.edited (image .sai)) :=
    (h .sai).2.1
  have hmoe : Step.sparseC.patcher.Patchable (image .nvfp4) := (h .nvfp4).1
  have hnot : ∀ files : Files, files .nvfp4 = image .nvfp4 → skips .sparseC files = false := by
    intro files hfiles
    rw [← Bool.not_eq_true, skips_iff, Marked, fileOf, hfiles]
    exact hmoe.not_carries
  refine ⟨_, Prod.ext ?_ rfl⟩
  simp [Script.phases, sparsePhases, runPhases, Phase.run, python, runSteps, Phase.steps,
    Phase.check, toCompile, fileOf, h2.run_eq, h3.run_eq, h4.run_eq, hmoe.run_eq, henv,
    ha2, ha3, ha4, hc, hnot]

/-- With that compiler the first start of the sample container fails, and the second one,
on the files that it has left, is served. -/
theorem retry_passes_iff_engineImage :
    ∃ t', runPhases rejectsMoeBackend wheelEnv Script.sparse.phases ⟨engineImage, none, none⟩ =
        (some (.moeBackend, .python (.raised "PyCompileError")), t') ∧
      (runPhases rejectsMoeBackend wheelEnv Script.sparse.phases t').1 = none := by
  have h := fits_engineImage.installs
  have hspares : ∀ s ∈ [Step.sparseA2, .sparseA3, .sparseA4],
      s.patcher.Spares Step.sparseC.patcher := by
    intro s hs e he
    have hall : [Step.sparseA2, .sparseA3, .sparseA4].all (fun s => s.patcher.edits.all fun e =>
        e.spares Step.sparseC.patcher.sentinel) = true := by decide +kernel
    exact Edit.spares_iff.mp (List.all_eq_true.mp (List.all_eq_true.mp hall s hs) e he)
  have hnot : ∀ f, f ≠ .nvfp4 → ¬ Step.sparseC.patcher.Carries (engineImage f) := by
    intro f hf hcarries
    rw [engineImage, carries_writeText_iff (newlines_engineText f)] at hcarries
    revert hcarries
    cases f <;> decide +kernel
  have ha3 := hnot .sai (by decide)
  have h3 : Step.sparseA3.patcher.Patchable (engineImage .sai) := (h .sai).1
  have hmid : ¬ Step.sparseC.patcher.Carries (Step.sparseA3.patcher.edited (engineImage .sai)) :=
    fun hc => ha3 (h3.carries_of_spares (hspares .sparseA3 (by simp)) hc)
  obtain ⟨t', hfailed⟩ := Fits.masked h (rfl : wheelEnv.installs = true)
    (rejectsMoeBackend_of_patchable (h .deepGemm).1 (hspares _ (by simp)) (hnot _ (by decide)))
    (rejectsMoeBackend_of_patchable h3 (hspares _ (by simp)) ha3)
    (rejectsMoeBackend_of_patchable (h .sai).2.1 (hspares _ (by simp)) hmid)
    (rejectsMoeBackend_of_carries ((h .nvfp4).1.carries (tidy_patcher .sparseC)))
  obtain ⟨pre, post, hscript, -, -, -, hretry⟩ := retry_passes_iff hfailed (by decide)
    (rfl : wheelEnv.installs = true)
  refine ⟨t', hfailed, ?_⟩
  have hlast : Script.sparse.phases = pre ++ [.moeBackend] := by
    have hpost : post = [] := by
      have hsuffix : Phase.moeBackend :: post <:+ [Phase.a1, .a2a3, .a4, .b12x, .moeBackend] :=
        ⟨pre, hscript.symm⟩
      simpa [List.suffix_cons_iff] using hsuffix
    rw [hscript, hpost]
  rw [hlast]
  exact hretry.mpr ⟨rfl, rfl⟩

end

end Glm52.RuntimePatch
