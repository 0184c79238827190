import Glm52.PatchChain
import Glm52.TwoFilePatch
import Mathlib.Logic.Function.Basic

/-! # The patch script of a container

Before the engine is served, a patch script runs inside each container: the sparse script,
or the one that `build-dcp-patch.sh` makes by appending the DCP items to it.  A script is a
sequence of phases under `set -e`; most of them are Python processes that run one or two of
the patchers and then, some of them, compile what they have patched.  A container that is
not served stays with what the script has done so far, and the script may run again.

A process of two patchers is an item of `TwoFilePatch` (`python_transactional_iff`).  A
phase that is through has marked its files and does nothing any more (`Settled`); so are all
phases of a script that is through (`settled_of_runPhases`).  The package marker is made
once, and the result of the b12x probe is written by every start that gets there. -/
namespace Glm52.RuntimePatch
open TextReplace FilePatch SingleFilePatch

/-- The files of the installed engine that the scripts edit. -/
inductive File
  | deepGemm
  | sai
  | nvfp4
  | mlaAttention
  | indexer
deriving DecidableEq

/-- The file of a patcher. -/
def fileOf : Step → File
  | .sparseA2 => .deepGemm
  | .sparseA3 | .sparseA4 | .itemBSai | .itemCSai => .sai
  | .sparseC => .nvfp4
  | .itemA => .mlaAttention
  | .itemBIndexer | .itemCIndexer => .indexer

/-! ### Phases -/

/-- The phases of the scripts. -/
inductive Phase
  | a1
  | a2a3
  | a4
  | b12x
  | moeBackend
  | itemA
  | itemB
  | itemC
deriving DecidableEq

/-- The patchers of a phase, in the order in which its process runs them. -/
def Phase.steps : Phase → List Step
  | .a2a3 => [.sparseA2, .sparseA3]
  | .a4 => [.sparseA4]
  | .moeBackend => [.sparseC]
  | .itemA => [.itemA]
  | .itemB => [.itemBIndexer, .itemBSai]
  | .itemC => [.itemCIndexer, .itemCSai]
  | .a1 | .b12x => []

/-- What a process compiles: all its files, or a file that it has written, or nothing. -/
inductive Check
  | always
  | whenWritten
  | never
deriving DecidableEq

def Phase.check : Phase → Check
  | .a2a3 | .itemB | .itemC => .always
  | .a4 | .moeBackend => .whenWritten
  | .a1 | .b12x | .itemA => .never

abbrev Files := File → ByteArray

/-- The patchers in turn, until one gives up: how it gives up, and the files. -/
def runSteps : List Step → Files → Option Exit × Files
  | [], files => (none, files)
  | s :: steps, files =>
    match s.patcher.run (files (fileOf s)) with
    | .error exit => (some exit, files)
    | .ok new => runSteps steps (Function.update files (fileOf s) new)

/-- Whether the patcher skips the file. -/
def skips (s : Step) (files : Files) : Bool :=
  match readText (files (fileOf s)) with
  | none => false
  | some src => occurs s.patcher.sentinel src

/-- The patchers whose file the process compiles. -/
def toCompile (check : Check) (steps : List Step) (files : Files) : List Step :=
  match check with
  | .always => steps
  | .whenWritten => steps.filter fun s => !skips s files
  | .never => []

/-- What one start finds out about b12x. -/
structure Env where
  /-- the pinned version can be imported -/
  installed : Bool
  /-- pip installs the offline wheel -/
  wheel : Bool
  /-- pip fetches it from the index -/
  pypi : Bool
  /-- the decode modules can be imported -/
  decodeImports : Bool

/-- `b12x` is there, or one of the two `pip install` succeeds. -/
def Env.installs (env : Env) : Bool := env.installed || env.wheel || env.pypi

/-- The result of the probe, as the launcher sources it. -/
def Env.probeResult (env : Env) : Text :=
  if env.decodeImports then
    txt "GLM52_B12X_MLA=1\nGLM52_CUDAGRAPH_MODE=FULL\n"
  else
    txt "GLM52_B12X_MLA=0\nGLM52_CUDAGRAPH_MODE=PIECEWISE\n"

/-- What the scripts change in a container. -/
structure Tree where
  files : Files
  /-- `deepseek_v4_ops/__init__.py` -/
  opsInit : Option ByteArray
  /-- `glm52-b12x.env` -/
  b12xEnv : Option ByteArray

def packageMarker : Text :=
  txt "# auto-generated by glm52-sm12x-sparse patch (package marker)\n"

/-- What ends a script early. -/
inductive Halt
  | python (exit : Exit)
  | pip
deriving DecidableEq

def Halt.code : Halt → ℕ
  | .python exit => exit.code
  | .pip => 1

section
variable (compiles : ByteArray → Bool)

/-- The Python process of a phase. -/
def python (phase : Phase) (files : Files) : Option Exit × Files :=
  match runSteps phase.steps files with
  | (some exit, files') => (some exit, files')
  | (none, files') =>
    if (toCompile phase.check phase.steps files).all fun s => compiles (files' (fileOf s)) then
      (none, files')
    else (some (.raised "PyCompileError"), files')

/-- A phase: what ends the script there, if anything does, and the container. -/
def Phase.run (env : Env) (phase : Phase) (t : Tree) : Option Halt × Tree :=
  match phase with
  | .a1 => (none, { t with opsInit := some (t.opsInit.getD (writeText packageMarker)) })
  | .b12x =>
    if env.installs then (none, { t with b12xEnv := some (writeText env.probeResult) })
    else (some .pip, t)
  | phase =>
    let (exit, files) := python compiles phase t.files
    (exit.map .python, { t with files := files })

/-- The phases in turn, until one ends the script. -/
def runPhases (env : Env) : List Phase → Tree → Option (Phase × Halt) × Tree
  | [], t => (none, t)
  | phase :: phases, t =>
    match phase.run compiles env t with
    | (some halt, t') => (some (phase, halt), t')
    | (none, t') => runPhases env phases t'

end

/-! ### The scripts -/

/-- `glm52-sparse-patches.sh`, `glm52-dcp-patches.sh`, and `glm52-sparse-patches-dcp.sh`. -/
inductive Script
  | sparse
  | dcp
  | sparseDcp
deriving DecidableEq

def sparsePhases : List Phase := [.a1, .a2a3, .a4, .b12x, .moeBackend]

def dcpPhases : List Phase := [.itemA, .itemB, .itemC]

def Script.phases : Script → List Phase
  | .sparse => sparsePhases
  | .dcp => dcpPhases
  | .sparseDcp => sparsePhases ++ dcpPhases

def Script.steps (script : Script) : List Step := script.phases.flatMap Phase.steps

/-- A start of a container's script, which may be interrupted between two phases. -/
structure Start where
  script : Script
  env : Env
  reached : ℕ

def Start.run (compiles : ByteArray → Bool) (start : Start) (t : Tree) : Tree :=
  (runPhases compiles start.env (start.script.phases.take start.reached) t).2

def runStarts (compiles : ByteArray → Bool) (starts : List Start) (t : Tree) : Tree :=
  starts.foldl (fun t start => start.run compiles t) t

/-! ### What a process does -/

/-- No patcher destroys a sentinel in its file. -/
theorem keeps_step {s s' : Step} (h : fileOf s = fileOf s') : s.patcher.Keeps s'.patcher := by
  have hkeeps : s.patcher.edits.all (fun e => e.keeps s'.patcher.sentinel) = true := by
    cases s <;> cases s' <;> first | exact absurd h (by decide) | decide +kernel
  exact fun e he => Edit.keeps_iff.mp (List.all_eq_true.mp hkeeps e he)

/-- The sentinel of the patcher is in its file. -/
def Marked (files : Files) (s : Step) : Prop := s.patcher.Carries (files (fileOf s))

theorem skips_iff {s : Step} {files : Files} : skips s files = true ↔ Marked files s := by
  unfold skips Marked Patcher.Carries
  cases readText (files (fileOf s)) <;> simp

/-- A patcher that is through has marked its file, and no mark is lost. -/
theorem marked_of_run {s : Step} {files : Files} {new : ByteArray}
    (h : s.patcher.run (files (fileOf s)) = .ok new) :
    Marked (Function.update files (fileOf s) new) s ∧
      ∀ s', Marked files s' → Marked (Function.update files (fileOf s) new) s' := by
  constructor
  · simpa [Marked] using Patcher.carries_of_run (tidy_patcher s) h
  · intro s' hs'
    by_cases hfile : fileOf s' = fileOf s
    · rw [Marked, hfile] at hs'
      rw [Marked, hfile, Function.update_self]
      exact Patcher.carries_of_run_of_keeps (keeps_step hfile.symm) h hs'
    · rwa [Marked, Function.update_of_ne hfile]

theorem runSteps_keeps {steps : List Step} {files : Files} {s : Step} (h : Marked files s) :
    Marked (runSteps steps files).2 s := by
  induction steps generalizing files with
  | nil => exact h
  | cons s' steps ih =>
    rw [runSteps]
    cases hrun : s'.patcher.run (files (fileOf s')) with
    | error exit => exact h
    | ok new => exact ih ((marked_of_run hrun).2 s h)

theorem marked_of_runSteps {steps : List Step} {files : Files}
    (h : (runSteps steps files).1 = none) : ∀ s ∈ steps, Marked (runSteps steps files).2 s := by
  induction steps generalizing files with
  | nil => simp
  | cons s steps ih =>
    rw [runSteps] at h ⊢
    cases hrun : s.patcher.run (files (fileOf s)) with
    | error exit => simp [hrun] at h
    | ok new =>
      simp only [hrun] at h ⊢
      rw [List.forall_mem_cons]
      exact ⟨runSteps_keeps (marked_of_run hrun).1, ih h⟩

/-- Where all marks are, nothing is done. -/
theorem runSteps_of_marked {steps : List Step} {files : Files} (h : ∀ s ∈ steps, Marked files s) :
    runSteps steps files = (none, files) := by
  induction steps with
  | nil => rfl
  | cons s steps ih =>
    rw [List.forall_mem_cons] at h
    rw [runSteps, Patcher.Carries.run_eq h.1]
    simpa using ih h.2

/-- A process that has given up gives up again at the same place. -/
theorem runSteps_again {steps : List Step} {files files' : Files} {exit : Exit}
    (h : runSteps steps files = (some exit, files')) :
    runSteps steps files' = (some exit, files') := by
  induction steps generalizing files with
  | nil => simp [runSteps] at h
  | cons s steps ih =>
    rw [runSteps] at h
    cases hrun : s.patcher.run (files (fileOf s)) with
    | error exit' =>
      simp only [hrun, Prod.mk.injEq] at h
      obtain ⟨hexit, rfl⟩ := h
      simp only [runSteps, hrun, hexit]
    | ok new =>
      simp only [hrun] at h
      have hmarked : Marked files' s := by
        have hkept : Marked (runSteps steps _).2 s := runSteps_keeps (marked_of_run hrun).1
        rwa [h] at hkept
      rw [runSteps, Patcher.Carries.run_eq hmarked]
      simpa using ih h

theorem runSteps_frame {steps : List Step} {files : Files} {f : File}
    (h : ∀ s ∈ steps, fileOf s ≠ f) : (runSteps steps files).2 f = files f := by
  induction steps generalizing files with
  | nil => rfl
  | cons s steps ih =>
    rw [List.forall_mem_cons] at h
    rw [runSteps]
    cases s.patcher.run (files (fileOf s)) with
    | error exit => rfl
    | ok new =>
      rw [ih h.2, Function.update_of_ne h.1.symm]

theorem runSteps_code {steps : List Step} {files : Files} {exit : Exit}
    (h : (runSteps steps files).1 = some exit) : exit.code ≠ 0 := by
  induction steps generalizing files with
  | nil => simp [runSteps] at h
  | cons s steps ih =>
    rw [runSteps] at h
    cases hrun : s.patcher.run (files (fileOf s)) with
    | error exit' =>
      obtain ⟨exit'', hforeign, hcode⟩ := (Patcher.foreign_of_run hrun).run_eq
      simp only [hrun] at h hforeign
      rwa [← Option.some.inj h, Except.error.inj hforeign]
    | ok new =>
      simp only [hrun] at h
      exact ih h

section
variable {compiles : ByteArray → Bool}

@[simp] theorem python_files (phase : Phase) (files : Files) :
    (python compiles phase files).2 = (runSteps phase.steps files).2 := by
  unfold python
  rcases runSteps phase.steps files with ⟨_ | exit, files'⟩
  · dsimp only
    split <;> rfl
  · rfl

theorem python_eq_none_iff {phase : Phase} {files : Files} :
    (python compiles phase files).1 = none ↔
      (runSteps phase.steps files).1 = none ∧
        ∀ s ∈ toCompile phase.check phase.steps files,
          compiles ((runSteps phase.steps files).2 (fileOf s)) = true := by
  unfold python
  rcases runSteps phase.steps files with ⟨_ | exit, files'⟩
  · dsimp only
    rw [← List.all_eq_true]
    split <;> simp_all
  · simp

/-- How a process that fails has failed: a patcher gave up, or a file does not compile. -/
theorem python_eq_some {phase : Phase} {files files' : Files} {exit : Exit}
    (h : python compiles phase files = (some exit, files')) :
    runSteps phase.steps files = (some exit, files') ∨
      (runSteps phase.steps files = (none, files') ∧ exit = .raised "PyCompileError" ∧
        ∃ s ∈ toCompile phase.check phase.steps files, compiles (files' (fileOf s)) = false) := by
  unfold python at h
  rcases hsteps : runSteps phase.steps files with ⟨_ | exit', files''⟩
  · rw [hsteps] at h
    by_cases hall : ((toCompile phase.check phase.steps files).all fun s =>
        compiles (files'' (fileOf s))) = true
    · simp [hall] at h
    · simp only [if_neg hall, Prod.mk.injEq, Option.some.injEq] at h
      obtain ⟨rfl, rfl⟩ := h
      exact Or.inr ⟨rfl, rfl, by simpa using hall⟩
  · rw [hsteps] at h
    exact Or.inl h

theorem python_code {phase : Phase} {files files' : Files} {exit : Exit}
    (h : python compiles phase files = (some exit, files')) : exit.code ≠ 0 := by
  rcases python_eq_some h with hsteps | ⟨-, rfl, -⟩
  · exact runSteps_code (congrArg Prod.fst hsteps)
  · exact Nat.one_ne_zero

/-- A process with two patchers is the item of `TwoFilePatch`, on its two files. -/
theorem python_pair {phase : Phase} {s s' : Step} (hsteps : phase.steps = [s, s'])
    (hcheck : phase.check = .always) (hfile : fileOf s ≠ fileOf s') (files : Files) :
    TwoFilePatch.Patchers.run ⟨s.patcher, s'.patcher⟩ compiles
        ⟨files (fileOf s), files (fileOf s')⟩ =
      ((python compiles phase files).1.getD .success,
        ⟨(python compiles phase files).2 (fileOf s),
          (python compiles phase files).2 (fileOf s')⟩) := by
  simp only [python, hsteps, hcheck, toCompile, runSteps, TwoFilePatch.Patchers.run]
  cases hrun : s.patcher.run (files (fileOf s)) with
  | error exit => simp
  | ok new =>
    simp only [Function.update_of_ne hfile.symm]
    cases hrun' : s'.patcher.run (files (fileOf s')) with
    | error exit => simp [Function.update_of_ne hfile.symm]
    | ok new' =>
      by_cases hcompile : compiles new = true ∧ compiles new' = true
      · simp [TwoFilePatch.compileBoth, hcompile, Function.update_of_ne hfile]
      · simp [TwoFilePatch.compileBoth, hcompile, Function.update_of_ne hfile]

/-- **A process with two patchers is a transaction** exactly on the safe contents of its two
files: it ends with both fully patched, or gives up and leaves both as they were. -/
theorem python_transactional_iff {phase : Phase} {s s' : Step} (hsteps : phase.steps = [s, s'])
    (hcheck : phase.check = .always) (hfile : fileOf s ≠ fileOf s') (files : Files) :
    (((python compiles phase files).1 = none ∧
        s.patcher.FullyPatched ((python compiles phase files).2 (fileOf s)) ∧
        s'.patcher.FullyPatched ((python compiles phase files).2 (fileOf s'))) ∨
      ((python compiles phase files).1 ≠ none ∧ (python compiles phase files).2 = files)) ↔
    TwoFilePatch.Patchers.Safe ⟨s.patcher, s'.patcher⟩ compiles
      ⟨files (fileOf s), files (fileOf s')⟩ := by
  have hframe : ∀ f, f ≠ fileOf s → f ≠ fileOf s' →
      (python compiles phase files).2 f = files f := by
    intro f hf hf'
    rw [python_files]
    refine runSteps_frame fun t ht => ?_
    rw [hsteps] at ht
    rcases List.mem_pair.mp ht with rfl | rfl
    · exact hf.symm
    · exact hf'.symm
  have hcode : ((python compiles phase files).1.getD .success).code = 0 ↔
      (python compiles phase files).1 = none := by
    rcases hrun : python compiles phase files with ⟨_ | exit, files'⟩
    · simp [Exit.code]
    · have hne : exit.code ≠ 0 := python_code hrun
      simp [hne]
  have hsame : (python compiles phase files).2 = files ↔
      (python compiles phase files).2 (fileOf s) = files (fileOf s) ∧
        (python compiles phase files).2 (fileOf s') = files (fileOf s') := by
    refine ⟨fun h => by rw [h]; exact ⟨rfl, rfl⟩, fun h => funext fun f => ?_⟩
    by_cases hf : f = fileOf s
    · rw [hf, h.1]
    · by_cases hf' : f = fileOf s'
      · rw [hf', h.2]
      · exact hframe f hf hf'
  rw [← TwoFilePatch.Patchers.transactional_iff, TwoFilePatch.Patchers.Transactional,
    python_pair hsteps hcheck hfile]
  simp only [ne_eq, hcode, hsame, TwoFilePatch.Files.mk.injEq]

/-! ### What a phase does -/

@[simp] theorem Phase.run_files (env : Env) (phase : Phase) (t : Tree) :
    (phase.run compiles env t).2.files = (runSteps phase.steps t.files).2 := by
  cases phase with
  | b12x =>
    simp only [Phase.run]
    split <;> rfl
  | a1 => rfl
  | a2a3 | a4 | moeBackend | itemA | itemB | itemC => exact python_files _ _

theorem Phase.run_eq_none_iff {env : Env} {phase : Phase} {t : Tree} :
    (phase.run compiles env t).1 = none ↔
      (phase = .b12x → env.installs = true) ∧ (python compiles phase t.files).1 = none := by
  cases phase with
  | b12x =>
    by_cases hinst : env.installs = true <;> simp [Phase.run, hinst, python, runSteps, toCompile,
      Phase.steps, Phase.check]
  | a1 => simp [Phase.run, python, runSteps, toCompile, Phase.steps, Phase.check]
  | a2a3 | a4 | moeBackend | itemA | itemB | itemC => simp [Phase.run]

theorem Phase.run_eq_some {env : Env} {phase : Phase} {t : Tree} {halt : Halt}
    (hphase : phase ≠ .b12x) (h : (phase.run compiles env t).1 = some halt) :
    ∃ exit, halt = .python exit ∧ (python compiles phase t.files).1 = some exit := by
  cases phase with
  | b12x => exact absurd rfl hphase
  | a1 => simp [Phase.run] at h
  | a2a3 | a4 | moeBackend | itemA | itemB | itemC =>
    obtain ⟨exit, hexit, rfl⟩ := Option.map_eq_some_iff.mp h
    exact ⟨exit, rfl, hexit⟩

/-- A script that stops has a status for the launcher. -/
theorem Phase.run_code {env : Env} {phase : Phase} {t : Tree} {halt : Halt}
    (h : (phase.run compiles env t).1 = some halt) : halt.code ≠ 0 := by
  by_cases hphase : phase = .b12x
  · subst hphase
    by_cases hinst : env.installs = true <;> simp only [Phase.run, hinst] at h
    · simp at h
    · obtain rfl : Halt.pip = halt := by simpa using h
      exact Nat.one_ne_zero
  · obtain ⟨exit, rfl, hexit⟩ := Phase.run_eq_some hphase h
    exact python_code (Prod.ext hexit rfl : _ = (some exit, _))

/-! ### Phases that are through -/

/-- What a phase that is through has established: its files are marked, and those that
every start compiles compile. -/
structure Settled (compiles : ByteArray → Bool) (files : Files) (phase : Phase) : Prop where
  marked : ∀ s ∈ phase.steps, Marked files s
  compiled : phase.check = .always → ∀ s ∈ phase.steps, compiles (files (fileOf s)) = true

theorem Settled.of_python {phase : Phase} {files files' : Files}
    (h : python compiles phase files = (none, files')) : Settled compiles files' phase := by
  obtain ⟨hsteps, hcompile⟩ := python_eq_none_iff.mp (congrArg Prod.fst h)
  have hfiles : (runSteps phase.steps files).2 = files' :=
    (python_files phase files).symm.trans (congrArg Prod.snd h)
  rw [hfiles] at hcompile
  refine ⟨hfiles ▸ marked_of_runSteps hsteps, fun hcheck s hs => hcompile s ?_⟩
  rwa [hcheck, toCompile]

/-- A phase that is through does nothing any more. -/
theorem Settled.python_eq {phase : Phase} {files : Files} (h : Settled compiles files phase) :
    python compiles phase files = (none, files) := by
  have hsteps := runSteps_of_marked h.marked
  refine Prod.ext (python_eq_none_iff.mpr ⟨congrArg Prod.fst hsteps, fun s hs => ?_⟩) ?_
  · rw [hsteps]
    cases hcheck : phase.check with
    | always => exact h.compiled hcheck s (by simpa [hcheck, toCompile] using hs)
    | whenWritten =>
      simp only [hcheck, toCompile, List.mem_filter, Bool.not_eq_true', ← Bool.not_eq_true,
        skips_iff] at hs
      exact absurd (h.marked s hs.1) hs.2
    | never => simp [hcheck, toCompile] at hs
  · rw [python_files, hsteps]

/-- A file other than `mla_attention.py` that compiles still does behind a phase that is
through: the phase has compiled it, or has not written it. -/
theorem compiles_python {phase : Phase} {files : Files} {f : File} (hf : f ≠ .mlaAttention)
    (h : (python compiles phase files).1 = none) (hcompiles : compiles (files f) = true) :
    compiles ((python compiles phase files).2 f) = true := by
  obtain ⟨-, hall⟩ := python_eq_none_iff.mp h
  rw [python_files]
  by_cases hmem : ∃ s ∈ phase.steps, fileOf s = f
  · obtain ⟨s, hs, rfl⟩ := hmem
    cases hcheck : phase.check with
    | always => exact hall s (by rwa [hcheck, toCompile])
    | whenWritten =>
      -- a process that compiles what it has written has one patcher
      have hone : phase.steps = [s] := by
        cases phase <;> simp_all [Phase.steps, Phase.check]
      by_cases hskip : skips s files = true
      · have hmarked : ∀ s' ∈ phase.steps, Marked files s' := by
          simpa [hone] using skips_iff.mp hskip
        rwa [runSteps_of_marked hmarked]
      · exact hall s (by simp [hcheck, toCompile, hone, hskip])
    | never =>
      cases phase with
      | itemA =>
        obtain rfl : s = .itemA := by simpa [Phase.steps] using hs
        exact absurd rfl hf
      | a1 | b12x => simp [Phase.steps] at hs
      | a2a3 | a4 | moeBackend | itemB | itemC => simp [Phase.check] at hcheck
  · rwa [runSteps_frame fun s hs heq => hmem ⟨s, hs, heq⟩]

theorem Settled.keeps {phase phase' : Phase} {files files' : Files}
    (h : Settled compiles files phase) (hrun : python compiles phase' files = (none, files')) :
    Settled compiles files' phase := by
  have hfiles : (python compiles phase' files).2 = files' := congrArg Prod.snd hrun
  constructor
  · intro s hs
    rw [← hfiles, python_files]
    exact runSteps_keeps (h.marked s hs)
  · intro hcheck s hs
    have hf : fileOf s ≠ .mlaAttention := by
      cases phase <;> simp_all [Phase.steps, Phase.check] <;> rcases hs with rfl | rfl <;> decide
    rw [← hfiles]
    exact compiles_python hf (congrArg Prod.fst hrun) (h.compiled hcheck s hs)

theorem Settled.of_run {env : Env} {phase : Phase} {t t' : Tree}
    (h : phase.run compiles env t = (none, t')) : Settled compiles t'.files phase := by
  obtain ⟨-, hpython⟩ := Phase.run_eq_none_iff.mp (congrArg Prod.fst h)
  have hfiles : t'.files = (python compiles phase t.files).2 := by
    rw [python_files, ← Phase.run_files env, h]
  exact .of_python (Prod.ext hpython hfiles.symm)

theorem Settled.keeps_run {env : Env} {phase phase' : Phase} {t t' : Tree}
    (h : Settled compiles t.files phase) (hrun : phase'.run compiles env t = (none, t')) :
    Settled compiles t'.files phase := by
  obtain ⟨-, hpython⟩ := Phase.run_eq_none_iff.mp (congrArg Prod.fst hrun)
  have hfiles : t'.files = (python compiles phase' t.files).2 := by
    rw [python_files, ← Phase.run_files env, hrun]
  exact h.keeps (Prod.ext hpython hfiles.symm)

/-! ### What a script does -/

theorem runPhases_append (env : Env) (pre post : List Phase) (t : Tree) :
    runPhases compiles env (pre ++ post) t =
      match runPhases compiles env pre t with
      | (some x, t') => (some x, t')
      | (none, t') => runPhases compiles env post t' := by
  induction pre generalizing t with
  | nil => rfl
  | cons phase pre ih =>
    simp only [List.cons_append, runPhases]
    rcases phase.run compiles env t with ⟨_ | halt, t'⟩
    · exact ih t'
    · rfl

theorem runPhases_singleton (env : Env) (phase : Phase) (t : Tree) :
    runPhases compiles env [phase] t =
      ((phase.run compiles env t).1.map (Prod.mk phase), (phase.run compiles env t).2) := by
  simp only [runPhases]
  rcases phase.run compiles env t with ⟨_ | halt, u⟩
  · rfl
  · rfl

/-- What each phase keeps, a script keeps. -/
theorem runPhases_keeps {P : Tree → Prop} {env : Env} {phases : List Phase}
    (hkeeps : ∀ phase ∈ phases, ∀ u, P u → P (phase.run compiles env u).2) {t : Tree}
    (ht : P t) : P (runPhases compiles env phases t).2 := by
  induction phases generalizing t with
  | nil => exact ht
  | cons phase phases ih =>
    rw [List.forall_mem_cons] at hkeeps
    have hhere := hkeeps.1 t ht
    rw [runPhases]
    rcases hphase : phase.run compiles env t with ⟨_ | halt, u⟩
    · rw [hphase] at hhere
      exact ih hkeeps.2 hhere
    · rwa [hphase] at hhere

/-- A phase of a script that is through was through, and so were those behind it. -/
theorem exists_run_of_mem {env : Env} {phases : List Phase} {t t' : Tree} {phase : Phase}
    (hrun : runPhases compiles env phases t = (none, t')) (hmem : phase ∈ phases) :
    ∃ post u u', phase.run compiles env u = (none, u') ∧
      runPhases compiles env post u' = (none, t') := by
  obtain ⟨pre, post, rfl⟩ := List.append_of_mem hmem
  rw [runPhases_append] at hrun
  rcases hpre : runPhases compiles env pre t with ⟨_ | x, u⟩
  · simp only [hpre, runPhases] at hrun
    rcases hphase : phase.run compiles env u with ⟨_ | halt, u'⟩
    · exact ⟨post, u, u', hphase, by simpa only [hphase] using hrun⟩
    · simp [hphase] at hrun
  · simp [hpre] at hrun

/-- Every phase before the one that ends a script is through. -/
theorem runPhases_eq_some {env : Env} {phases : List Phase} {t t' : Tree} {phase : Phase}
    {halt : Halt} (h : runPhases compiles env phases t = (some (phase, halt), t')) :
    ∃ pre post u, phases = pre ++ phase :: post ∧ runPhases compiles env pre t = (none, u) ∧
      phase.run compiles env u = (some halt, t') := by
  induction phases generalizing t with
  | nil => simp [runPhases] at h
  | cons phase' phases ih =>
    rw [runPhases] at h
    rcases hrun : phase'.run compiles env t with ⟨_ | halt', u⟩
    · simp only [hrun] at h
      obtain ⟨pre, post, u', rfl, hpre, hphase⟩ := ih h
      exact ⟨phase' :: pre, post, u', rfl, by simpa only [runPhases, hrun] using hpre, hphase⟩
    · simp only [hrun, Prod.mk.injEq, Option.some.injEq] at h
      obtain ⟨⟨rfl, rfl⟩, rfl⟩ := h
      exact ⟨[], phases, t, rfl, rfl, hrun⟩

theorem Settled.keeps_runPhases {env : Env} {phases : List Phase} {phase : Phase} {t t' : Tree}
    (h : Settled compiles t.files phase) (hrun : runPhases compiles env phases t = (none, t')) :
    Settled compiles t'.files phase := by
  induction phases generalizing t with
  | nil =>
    obtain rfl : t = t' := congrArg Prod.snd hrun
    exact h
  | cons phase' phases ih =>
    rw [runPhases] at hrun
    rcases hphase : phase'.run compiles env t with ⟨_ | halt, u⟩
    · simp only [hphase] at hrun
      exact ih (h.keeps_run hphase) hrun
    · simp [hphase] at hrun

/-- Behind a script that is through, all its phases are. -/
theorem settled_of_runPhases {env : Env} {phases : List Phase} {t t' : Tree}
    (hrun : runPhases compiles env phases t = (none, t')) :
    ∀ phase ∈ phases, Settled compiles t'.files phase := by
  intro phase hmem
  obtain ⟨post, u, u', hphase, hpost⟩ := exists_run_of_mem hrun hmem
  exact (Settled.of_run hphase).keeps_runPhases hpost

/-- Marked files are not written. -/
theorem runPhases_of_marked {env : Env} {phases : List Phase} {t : Tree}
    (h : ∀ phase ∈ phases, ∀ s ∈ phase.steps, Marked t.files s) :
    (runPhases compiles env phases t).2.files = t.files := by
  refine runPhases_keeps (P := fun u => u.files = t.files) (fun phase hmem u hu => ?_) rfl
  rw [Phase.run_files, runSteps_of_marked (hu ▸ h phase hmem), hu]

/-- Phases that are through change no file, and only b12x can end a script of them. -/
theorem runPhases_of_settled {env : Env} {phases : List Phase} {t : Tree}
    (h : ∀ phase ∈ phases, Settled compiles t.files phase) :
    (runPhases compiles env phases t).2.files = t.files ∧
      (env.installs = true → (runPhases compiles env phases t).1 = none) := by
  refine ⟨runPhases_of_marked fun phase hmem => (h phase hmem).marked, fun henv => ?_⟩
  rcases hrun : runPhases compiles env phases t with ⟨_ | ⟨phase, halt⟩, t'⟩
  · rfl
  · obtain ⟨pre, post, u, rfl, hpre, hphase⟩ := runPhases_eq_some hrun
    have hu : u.files = t.files := by
      have hkept : (runPhases compiles env pre t).2.files = t.files := runPhases_of_marked
        fun phase' hmem => (h phase' (List.mem_append_left _ hmem)).marked
      rwa [hpre] at hkept
    have hsettled := h phase (List.mem_append_right _ List.mem_cons_self)
    have hnone : (phase.run compiles env u).1 = none :=
      Phase.run_eq_none_iff.mpr ⟨fun _ => henv, hu ▸ congrArg Prod.fst hsettled.python_eq⟩
    simp [hphase] at hnone

/-! ### The package marker and the result of the probe -/

/-- A marker that is there stays, and only A1 makes one. -/
theorem Phase.run_opsInit {env : Env} {phase : Phase} {t : Tree}
    (h : phase = .a1 → t.opsInit.isSome) :
    (phase.run compiles env t).2.opsInit = t.opsInit := by
  cases phase with
  | a1 =>
    obtain ⟨marker, hmarker⟩ := Option.isSome_iff_exists.mp (h rfl)
    simp only [Phase.run, hmarker, Option.getD_some]
  | b12x =>
    simp only [Phase.run]
    split <;> rfl
  | a2a3 | a4 | moeBackend | itemA | itemB | itemC => rfl

theorem runPhases_opsInit {env : Env} {phases : List Phase} {t : Tree}
    (h : .a1 ∈ phases → t.opsInit.isSome) :
    (runPhases compiles env phases t).2.opsInit = t.opsInit := by
  refine runPhases_keeps (P := fun u => u.opsInit = t.opsInit) (fun phase hmem u hu => ?_) rfl
  exact (Phase.run_opsInit fun ha1 => hu ▸ h (ha1 ▸ hmem)).trans hu

/-- Behind phases that are through, A1 among them, the marker is there. -/
theorem isSome_opsInit_of_runPhases {env : Env} {phases : List Phase} {t t' : Tree}
    (hrun : runPhases compiles env phases t = (none, t')) (ha1 : .a1 ∈ phases) :
    t'.opsInit.isSome := by
  obtain ⟨post, u, u', hphase, hpost⟩ := exists_run_of_mem hrun ha1
  have hmarker : u'.opsInit.isSome := by
    obtain rfl : _ = u' := congrArg Prod.snd hphase
    rfl
  have hkept : (runPhases compiles env post u').2.opsInit = u'.opsInit :=
    runPhases_opsInit fun _ => hmarker
  rw [hpost] at hkept
  exact hkept ▸ hmarker

theorem Phase.run_b12xEnv (env : Env) (phase : Phase) (t : Tree) :
    (phase.run compiles env t).2.b12xEnv = t.b12xEnv ∨
      (phase = .b12x ∧ env.installs = true ∧
        (phase.run compiles env t).2.b12xEnv = some (writeText env.probeResult)) := by
  cases phase with
  | b12x =>
    by_cases henv : env.installs = true
    · exact Or.inr ⟨rfl, henv, by simp only [Phase.run, if_pos henv]⟩
    · exact Or.inl (by simp only [Phase.run, if_neg henv])
  | a1 | a2a3 | a4 | moeBackend | itemA | itemB | itemC => exact Or.inl rfl

/-- The result of the probe is the container's, or the one of this start. -/
theorem runPhases_b12xEnv (env : Env) (phases : List Phase) (t : Tree) :
    (runPhases compiles env phases t).2.b12xEnv = t.b12xEnv ∨
      (.b12x ∈ phases ∧ env.installs = true ∧
        (runPhases compiles env phases t).2.b12xEnv = some (writeText env.probeResult)) := by
  refine runPhases_keeps (P := fun u => u.b12xEnv = t.b12xEnv ∨ (.b12x ∈ phases ∧
    env.installs = true ∧ u.b12xEnv = some (writeText env.probeResult)))
    (fun phase hmem u hu => ?_) (Or.inl rfl)
  rcases @Phase.run_b12xEnv compiles env phase u with hsame | ⟨rfl, henv, hprobe⟩
  · exact hsame ▸ hu
  · exact Or.inr ⟨hmem, henv, hprobe⟩

/-- Phases that are through, b12x among them, leave the result of their own probe. -/
theorem b12xEnv_of_runPhases {env : Env} {phases : List Phase} {t t' : Tree}
    (hrun : runPhases compiles env phases t = (none, t')) (hb : .b12x ∈ phases) :
    t'.b12xEnv = some (writeText env.probeResult) := by
  obtain ⟨post, u, u', hphase, hpost⟩ := exists_run_of_mem hrun hb
  have henv := (Phase.run_eq_none_iff.mp (congrArg Prod.fst hphase)).1 rfl
  have hu' : u'.b12xEnv = some (writeText env.probeResult) := by
    have hsnd := congrArg (fun r => r.2.b12xEnv) hphase
    simpa only [Phase.run, if_pos henv] using hsnd.symm
  have hlast := @runPhases_b12xEnv compiles env post u'
  rw [hpost] at hlast
  rcases hlast with hsame | ⟨-, -, hprobe⟩
  · exact hsame.trans hu'
  · exact hprobe

theorem runStarts_opsInit {starts : List Start} {t : Tree}
    (h : ∀ start ∈ starts, .a1 ∈ start.script.phases → t.opsInit.isSome) :
    (runStarts compiles starts t).opsInit = t.opsInit := by
  induction starts generalizing t with
  | nil => rfl
  | cons start starts ih =>
    rw [List.forall_mem_cons] at h
    have hhere : (start.run compiles t).opsInit = t.opsInit :=
      runPhases_opsInit fun ha1 => h.1 (List.mem_of_mem_take ha1)
    exact (ih fun start' hstart' ha1 => hhere ▸ h.2 start' hstart' ha1).trans hhere

theorem runStarts_b12xEnv (starts : List Start) (t : Tree) :
    (runStarts compiles starts t).b12xEnv = t.b12xEnv ∨
      ∃ start ∈ starts, start.env.installs = true ∧
        (runStarts compiles starts t).b12xEnv = some (writeText start.env.probeResult) := by
  induction starts generalizing t with
  | nil => exact Or.inl rfl
  | cons start starts ih =>
    rcases ih (start.run compiles t) with hsame | ⟨later, hlater, hrest⟩
    · rcases runPhases_b12xEnv start.env (start.script.phases.take start.reached) t with
        hhere | ⟨-, henv, hprobe⟩
      · exact Or.inl (hsame.trans hhere)
      · exact Or.inr ⟨start, List.mem_cons_self, henv, hsame.trans hprobe⟩
    · exact Or.inr ⟨later, List.mem_cons_of_mem _ hlater, hrest⟩

end

end Glm52.RuntimePatch
