import Glm52.RuntimePatch

/-! # What the launcher serves

Starts of any of the scripts, in any order, interrupted or failing anywhere, leave every
file at a level of its chain of patchers (`Levelled`), and a start that is served has put
all of its own patchers in (`served_only_patched`).  Where the chains can be installed in
the image and what they make compiles, the sparse script and the combined one are served
after whatever came before, as soon as b12x is there (`fit_image_served`). -/
namespace Glm52.RuntimePatch
open TextReplace FilePatch SingleFilePatch

/-! ### The level of each file -/

/-- The patchers of a file, in the order in which they must be installed. -/
def chain : File → List Step
  | .deepGemm => [.sparseA2]
  | .sai => [.sparseA3, .sparseA4, .itemBSai, .itemCSai]
  | .nvfp4 => [.sparseC]
  | .mlaAttention => [.itemA]
  | .indexer => [.itemBIndexer, .itemCIndexer]

/-- The layer that a patcher makes. -/
def index : Step → ℕ
  | .sparseA2 | .sparseA3 | .sparseC | .itemA | .itemBIndexer => 0
  | .sparseA4 | .itemCIndexer => 1
  | .itemBSai => 2
  | .itemCSai => 3

theorem chain_index (s : Step) :
    ((chain (fileOf s)).map Step.patcher)[index s]? = some s.patcher := by
  cases s <;> rfl

theorem fileOf_chain (f : File) : ∀ s ∈ chain f, fileOf s = f := by
  cases f <;> decide

/-- `Patcher.Spares` along a chain, computed. -/
def layered (steps : List Step) : Bool :=
  match steps with
  | [] => true
  | s :: steps =>
    steps.all (fun s' => s.patcher.edits.all fun e => e.spares s'.patcher.sentinel) && layered steps

theorem pairwise_spares {steps : List Step} (h : layered steps = true) :
    (steps.map Step.patcher).Pairwise Patcher.Spares := by
  induction steps with
  | nil => exact List.Pairwise.nil
  | cons s steps ih =>
    rw [layered, Bool.and_eq_true, List.all_eq_true] at h
    refine List.pairwise_cons.mpr ⟨?_, ih h.2⟩
    intro p hp e he
    obtain ⟨s', hs', rfl⟩ := List.mem_map.mp hp
    exact Edit.spares_iff.mp (List.all_eq_true.mp (h.1 s' hs') e he)

theorem layered_chain (f : File) : Layered ((chain f).map Step.patcher) where
  tidy p hp := by
    obtain ⟨s, -, rfl⟩ := List.mem_map.mp hp
    exact tidy_patcher s
  keeps := by
    rw [List.pairwise_map]
    refine List.pairwise_of_forall_mem_list fun s hs s' hs' => keeps_step ?_
    rw [fileOf_chain f s hs, fileOf_chain f s' hs']
  spares := pairwise_spares (by cases f <;> decide +kernel)

/-- An image none of whose files has been patched. -/
def Pristine (image : Files) : Prop := ∀ s : Step, ¬ s.patcher.Carries (image (fileOf s))

/-- Every file has the layers of its level, and nothing else has been done to it. -/
def Levelled (image : Files) (level : File → ℕ) (files : Files) : Prop :=
  ∀ f, AtLevel ((chain f).map Step.patcher) (image f) (level f) (files f)

section
variable {compiles : ByteArray → Bool} {image : Files}

/-- The image has no layers. -/
theorem levelled_zero (image : Files) : Levelled image (fun _ => 0) image :=
  fun _ => ⟨Nat.zero_le _, trivial, rfl⟩

theorem Pristine.not_carries (himage : Pristine image) (f : File) :
    ∀ p ∈ (chain f).map Step.patcher, ¬ p.Carries (image f) := by
  intro p hp
  obtain ⟨s, hs, rfl⟩ := List.mem_map.mp hp
  exact fileOf_chain f s hs ▸ himage s

theorem Levelled.marked_iff (himage : Pristine image) {level : File → ℕ} {files : Files}
    (h : Levelled image level files) (s : Step) : Marked files s ↔ index s < level (fileOf s) :=
  (h (fileOf s)).carries_iff (layered_chain _) (himage.not_carries _) (chain_index s)

/-- The files that a patcher needs below its own layer: those that the phases before it in
every script have made, or, for item B, what it looks for in the text. -/
def Ready (level : File → ℕ) (s : Step) : Prop := s = .itemBSai ∨ index s ≤ level (fileOf s)

/-- Item B replaces what A4 has written. -/
theorem itemBSai_needs_a4 {files : Files}
    (h : Step.itemBSai.patcher.Patchable (files .sai)) : Marked files .sparseA4 := by
  obtain ⟨src, hread, -, hall⟩ := h
  have hsent : occurs Step.sparseA4.patcher.sentinel DcpPatches.ItemB.aR3 = true := by
    decide +kernel
  have haR3 : DcpPatches.ItemB.aR3 <:+: src :=
    hall ⟨DcpPatches.ItemB.aR3, DcpPatches.ItemB.rR3⟩ (by simp [Step.patcher, DcpPatches.ItemB.sai,
      DcpPatches.ItemB.saiEdits])
  exact ⟨src, hread, (occurs_iff.mp hsent).trans haR3⟩

theorem Levelled.ready (himage : Pristine image) {level : File → ℕ} {files : Files}
    (h : Levelled image level files) {s : Step} (hs : Ready level s) {new : ByteArray}
    (hrun : s.patcher.run (files (fileOf s)) = .ok new) : index s ≤ level (fileOf s) := by
  rcases hs with rfl | hs
  · rcases Patcher.carries_or_patchable_of_run hrun with ⟨hc, -⟩ | ⟨hpatch, -⟩
    · exact ((h.marked_iff himage _).mp hc).le
    · exact (h.marked_iff himage _).mp (itemBSai_needs_a4 hpatch)
  · exact hs

/-- One patcher that runs through adds its layer, or finds it there. -/
theorem Levelled.step (himage : Pristine image) {level : File → ℕ} {files : Files}
    (h : Levelled image level files) {s : Step} (hindex : index s ≤ level (fileOf s))
    {new : ByteArray} (hrun : s.patcher.run (files (fileOf s)) = .ok new) :
    ∃ level', (∀ f, level f ≤ level' f) ∧
      Levelled image level' (Function.update files (fileOf s) new) := by
  refine ⟨Function.update level (fileOf s) (max (level (fileOf s)) (index s + 1)), ?_, ?_⟩
  · intro f
    by_cases hf : f = fileOf s
    · rw [hf, Function.update_self]
      exact le_max_left _ _
    · rw [Function.update_of_ne hf]
  · intro f
    by_cases hf : f = fileOf s
    · subst hf
      simpa using (h (fileOf s)).run (layered_chain _) (himage.not_carries _) (chain_index s)
        hindex hrun
    · simpa [hf] using h f

/-- **A process adds layers.**  Each file that it patches gets the next layer or has it, and
where a patcher gives up the files keep their levels. -/
theorem Levelled.of_runSteps (himage : Pristine image) {steps : List Step} {level : File → ℕ}
    {files : Files} (h : Levelled image level files) (hready : ∀ s ∈ steps, Ready level s) :
    ∃ level', Levelled image level' (runSteps steps files).2 := by
  induction steps generalizing level files with
  | nil => exact ⟨level, h⟩
  | cons s steps ih =>
    rw [List.forall_mem_cons] at hready
    rw [runSteps]
    cases hrun : s.patcher.run (files (fileOf s)) with
    | error exit => exact ⟨level, h⟩
    | ok new =>
      obtain ⟨level₁, hgrows, hlevel₁⟩ := h.step himage (h.ready himage hready.1 hrun) hrun
      exact ih hlevel₁ fun s' hs' => (hready.2 s' hs').imp_right fun hle => hle.trans (hgrows _)

/-- The phases come in the order of the layers: whatever layer a patcher makes, the one
below it was made by an earlier phase (`done`), or the patcher looks for it itself. -/
def ordered (looks done : List Step) : List Phase → Bool
  | [] => true
  | phase :: phases =>
    phase.steps.all (fun s => decide (s ∈ looks) || decide (index s = 0) ||
      done.any fun s' => decide (fileOf s' = fileOf s) && decide (index s ≤ index s' + 1)) &&
    ordered looks (phase.steps ++ done) phases

theorem ordered_phases (script : Script) : ordered [.itemBSai] [] script.phases = true := by
  cases script <;> decide

theorem ordered_take {looks done : List Step} {phases : List Phase}
    (h : ordered looks done phases = true) (n : ℕ) :
    ordered looks done (phases.take n) = true := by
  induction phases generalizing done n with
  | nil => simpa using h
  | cons phase phases ih =>
    cases n with
    | zero => rfl
    | succ n =>
      rw [ordered, Bool.and_eq_true] at h
      rw [List.take_succ_cons, ordered, Bool.and_eq_true]
      exact ⟨h.1, ih h.2 n⟩

/-- What the next phase needs is there. -/
theorem Levelled.ready_of_ordered (himage : Pristine image) {level : File → ℕ} {files : Files}
    (h : Levelled image level files) {looks done : List Step} (hdone : ∀ s ∈ done, Marked files s)
    {phase : Phase} {phases : List Phase} (hordered : ordered looks done (phase :: phases) = true) :
    ∀ s ∈ phase.steps, s ∈ looks ∨ index s ≤ level (fileOf s) := by
  rw [ordered, Bool.and_eq_true, List.all_eq_true] at hordered
  intro s hs
  have hs' := hordered.1 s hs
  simp only [Bool.or_eq_true, decide_eq_true_eq, List.any_eq_true, Bool.and_eq_true] at hs'
  rcases hs' with (hlooks | hzero) | ⟨s', hmem, hfile, hbelow⟩
  · exact Or.inl hlooks
  · exact Or.inr (by omega)
  · have hlevel := (h.marked_iff himage s').mp (hdone s' hmem)
    rw [hfile] at hlevel
    exact Or.inr (by omega)

/-- A phase that is through has marked its files, and the marks stay. -/
theorem marked_of_phase {env : Env} {phase : Phase} {t u : Tree} {done : List Step}
    (hdone : ∀ s ∈ done, Marked t.files s) (hphase : phase.run compiles env t = (none, u)) :
    ∀ s ∈ phase.steps ++ done, Marked u.files s := by
  intro s hs
  rcases List.mem_append.mp hs with hs | hs
  · exact (Settled.of_run hphase).marked s hs
  · have hkept : Marked (runSteps phase.steps t.files).2 s := runSteps_keeps (hdone s hs)
    rwa [← Phase.run_files env, hphase] at hkept

/-- **A script adds layers**, whether it runs through or not. -/
theorem Levelled.of_runPhases (himage : Pristine image) {env : Env} {phases : List Phase}
    {done : List Step} {t : Tree} {level : File → ℕ} (h : Levelled image level t.files)
    (hdone : ∀ s ∈ done, Marked t.files s) (hordered : ordered [.itemBSai] done phases = true) :
    ∃ level', Levelled image level' (runPhases compiles env phases t).2.files := by
  induction phases generalizing t done level with
  | nil => exact ⟨level, h⟩
  | cons phase phases ih =>
    have hready := h.ready_of_ordered himage hdone hordered
    simp only [List.mem_singleton] at hready
    obtain ⟨level', hlevel'⟩ := h.of_runSteps himage hready
    rw [← Phase.run_files env phase t] at hlevel'
    rw [runPhases]
    rcases hphase : phase.run compiles env t with ⟨_ | halt, u⟩
    · rw [hphase] at hlevel'
      rw [ordered, Bool.and_eq_true] at hordered
      exact ih hlevel' (marked_of_phase hdone hphase) hordered.2
    · rw [hphase] at hlevel'
      exact ⟨level', hlevel'⟩

theorem Levelled.of_runStarts (himage : Pristine image) {starts : List Start} {t : Tree}
    {level : File → ℕ} (h : Levelled image level t.files) :
    ∃ level', Levelled image level' (runStarts compiles starts t).files := by
  induction starts generalizing t level with
  | nil => exact ⟨level, h⟩
  | cons start starts ih =>
    have hordered := ordered_take (ordered_phases start.script) start.reached
    obtain ⟨level', hlevel'⟩ : ∃ level', Levelled image level' (start.run compiles t).files :=
      h.of_runPhases himage (fun s hs => absurd hs List.not_mem_nil) hordered
    exact ih hlevel'

/-! ### What is served -/

/-- The exit status of a script. -/
def status : Option (Phase × Halt) → ℕ
  | none => 0
  | some (_, halt) => halt.code

theorem runPhases_of_status {env : Env} {phases : List Phase} {t : Tree}
    (h : status (runPhases compiles env phases t).1 = 0) :
    (runPhases compiles env phases t).1 = none := by
  rcases hrun : runPhases compiles env phases t with ⟨_ | ⟨phase, halt⟩, t'⟩
  · rfl
  · obtain ⟨pre, post, u, -, -, hphase⟩ := runPhases_eq_some hrun
    rw [hrun] at h
    exact absurd h (Phase.run_code (congrArg Prod.fst hphase))

/-- The files that every start of the script compiles. -/
def Script.checked : Script → List File
  | .sparse => [.deepGemm, .sai]
  | .dcp => [.sai, .indexer]
  | .sparseDcp => [.deepGemm, .sai, .indexer]

/-- What the launcher serves: every patcher of the script has put its layer into its file,
nothing but layers has been done to any file, and the files that are compiled compile.  With
the DCP items the bytes are those of the image with all layers. -/
structure Served (compiles : ByteArray → Bool) (script : Script) (image files : Files) : Prop where
  patched : ∃ level, Levelled image level files ∧ ∀ s ∈ script.steps, index s < level (fileOf s)
  compiled : ∀ f ∈ script.checked, compiles (files f) = true
  whole : script = .sparseDcp → ∀ f, files f = layers ((chain f).map Step.patcher) (image f)

theorem Levelled.served (himage : Pristine image) {script : Script} {level : File → ℕ}
    {files : Files} (h : Levelled image level files)
    (hsettled : ∀ phase ∈ script.phases, Settled compiles files phase) :
    Served compiles script image files := by
  have hlevel : ∀ s ∈ script.steps, index s < level (fileOf s) := by
    intro s hs
    obtain ⟨phase, hphase, hs⟩ := List.mem_flatMap.mp hs
    exact (h.marked_iff himage s).mp ((hsettled phase hphase).marked s hs)
  refine ⟨⟨level, h, hlevel⟩, fun f hf => ?_, ?_⟩
  · -- each checked file is one of a phase that always compiles
    obtain ⟨phase, hphase, hcheck, s, hs, rfl⟩ : ∃ phase ∈ script.phases,
        phase.check = .always ∧ ∃ s ∈ phase.steps, fileOf s = f := by
      cases script <;> revert f <;> decide
    exact (hsettled phase hphase).compiled hcheck s hs
  · rintro rfl f
    have hlast : ∃ s ∈ Script.sparseDcp.steps, fileOf s = f ∧ index s + 1 = (chain f).length := by
      cases f <;> decide
    obtain ⟨s, hs, hfile, hindex⟩ := hlast
    have hlt := hlevel s hs
    rw [hfile] at hlt
    have hle : level f ≤ (chain f).length := by simpa using (h f).le
    rw [(h f).eq, List.take_of_length_le (by simp; omega)]

/-- **Only patched engines are served.**  Take an image that no script has touched, and any
number of starts of its container, with any of the scripts, each of them interrupted,
failing or not.  Every file is then at a level of its chain, whatever has failed; and when
a script exits with status 0, all of its own patches are in. -/
theorem served_only_patched (himage : Pristine image) (starts : List Start)
    (opsInit b12xEnv : Option ByteArray) (script : Script) (env : Env) :
    let t := runStarts compiles starts ⟨image, opsInit, b12xEnv⟩
    let result := runPhases compiles env script.phases t
    (∃ level, Levelled image level t.files) ∧
      (status result.1 = 0 → Served compiles script image result.2.files) := by
  intro t result
  obtain ⟨level, hlevel⟩ : ∃ level, Levelled image level t.files :=
    Levelled.of_runStarts himage (levelled_zero image)
  refine ⟨⟨level, hlevel⟩, fun hstatus => ?_⟩
  have hnone := runPhases_of_status hstatus
  obtain ⟨level', hlevel'⟩ : ∃ level', Levelled image level' result.2.files :=
    hlevel.of_runPhases himage (fun s hs => absurd hs List.not_mem_nil) (ordered_phases script)
  exact hlevel'.served himage (settled_of_runPhases (Prod.ext hnone rfl))

/-! ### Images that fit -/

/-- An image in which every chain can be installed, with levels that compile. -/
structure Fits (compiles : ByteArray → Bool) (image : Files) : Prop where
  installs : ∀ f, Installs ((chain f).map Step.patcher) (image f)
  compiles : ∀ f k, compiles (layers (((chain f).map Step.patcher).take k) (image f)) = true

theorem Levelled.runSteps_eq_none (himage : Pristine image) (hfits : Fits compiles image)
    {steps : List Step} {level : File → ℕ} {files : Files} (h : Levelled image level files)
    (hready : ∀ s ∈ steps, index s ≤ level (fileOf s)) : (runSteps steps files).1 = none := by
  induction steps generalizing level files with
  | nil => rfl
  | cons s steps ih =>
    rw [List.forall_mem_cons] at hready
    obtain ⟨new, hrun⟩ := (h (fileOf s)).exists_run (layered_chain _) (himage.not_carries _)
      (hfits.installs _) (chain_index s) hready.1
    obtain ⟨level₁, hgrows, hlevel₁⟩ := h.step himage hready.1 hrun
    simp only [runSteps, hrun]
    exact ih hlevel₁ fun s' hs' => (hready.2 s' hs').trans (hgrows _)

/-- A script whose patchers find what they need runs through. -/
theorem Levelled.runPhases_eq_none (himage : Pristine image) (hfits : Fits compiles image)
    {env : Env} (henv : env.installs = true) {phases : List Phase} {done : List Step} {t : Tree}
    {level : File → ℕ} (h : Levelled image level t.files) (hdone : ∀ s ∈ done, Marked t.files s)
    (hordered : ordered [] done phases = true) : (runPhases compiles env phases t).1 = none := by
  induction phases generalizing t done level with
  | nil => rfl
  | cons phase phases ih =>
    have hready : ∀ s ∈ phase.steps, index s ≤ level (fileOf s) := fun s hs =>
      (h.ready_of_ordered himage hdone hordered s hs).resolve_left List.not_mem_nil
    obtain ⟨level', hlevel'⟩ := h.of_runSteps himage fun s hs => Or.inr (hready s hs)
    have hpython : (python compiles phase t.files).1 = none := by
      refine python_eq_none_iff.mpr ⟨h.runSteps_eq_none himage hfits hready, fun s _ => ?_⟩
      rw [(hlevel' (fileOf s)).eq]
      exact hfits.compiles _ _
    have hnone : (phase.run compiles env t).1 = none :=
      Phase.run_eq_none_iff.mpr ⟨fun _ => henv, hpython⟩
    rw [← Phase.run_files env phase t] at hlevel'
    rw [runPhases]
    rcases hphase : phase.run compiles env t with ⟨_ | halt, u⟩
    · rw [hphase] at hlevel'
      rw [ordered, Bool.and_eq_true] at hordered
      exact ih hlevel' (marked_of_phase hdone hphase) hordered.2
    · simp [hphase] at hnone

/-- **Images that fit are served** by the sparse script and by the combined one, as soon as
b12x is there, whatever has been interrupted or has failed before.  The DCP script alone is
not: item B looks for what A4 writes. -/
theorem fit_image_served (himage : Pristine image) (hfits : Fits compiles image)
    (starts : List Start) (opsInit b12xEnv : Option ByteArray) {script : Script}
    (hscript : script ≠ .dcp) {env : Env} (henv : env.installs = true) :
    (runPhases compiles env script.phases
      (runStarts compiles starts ⟨image, opsInit, b12xEnv⟩)).1 = none := by
  have hordered : ordered [] [] script.phases = true := by
    cases script with
    | dcp => exact absurd rfl hscript
    | sparse | sparseDcp => decide
  obtain ⟨level, hlevel⟩ : ∃ level, Levelled image level
      (runStarts compiles starts ⟨image, opsInit, b12xEnv⟩).files :=
    Levelled.of_runStarts himage (levelled_zero image)
  exact hlevel.runPhases_eq_none himage hfits henv (fun s hs => absurd hs List.not_mem_nil) hordered

end

/-! ### A sample container -/

/-- The anchors of some patchers, one behind the other. -/
def anchorText (steps : List Step) : Text :=
  steps.flatMap fun s => s.patcher.edits.flatMap fun e => e.anchor

/-- The anchors of item B, before A4 has rewritten one of them. -/
def itemBAnchors : Text :=
  applyEdits (Step.sparseA4.patcher.edits.map fun e => ⟨e.repl, e.anchor⟩) (anchorText [.itemBSai])

/-- An image with the anchors of all patchers. -/
def engineText : File → Text
  | .sai => anchorText [.sparseA3] ++ itemBAnchors ++ anchorText [.itemCSai]
  | f => anchorText (chain f)

def engineImage : Files := fun f => writeText (engineText f)

/-- The last patcher of `sparse_attn_indexer.py` finds its anchors where they were. -/
theorem installs_engineImage_sai :
    Installs ((chain .sai).map Step.patcher) (engineImage .sai) := by
  have hfirst : Installs ([Step.sparseA3, .sparseA4, .itemBSai].map Step.patcher)
      (engineImage .sai) := installs_writeText (by decide +kernel)
  have hitemC : Installs [Step.itemCSai.patcher] (engineImage .sai) :=
    installs_writeText (by decide +kernel)
  have hspares : ∀ q ∈ [Step.sparseA3, .sparseA4, .itemBSai].map Step.patcher,
      q.Spares Step.itemCSai.patcher := by
    have hlayered := (layered_chain .sai).spares
    change (([Step.sparseA3, .sparseA4, .itemBSai].map Step.patcher) ++
      [Step.itemCSai.patcher]).Pairwise Patcher.Spares at hlayered
    exact fun q hq => (List.pairwise_append.mp hlayered).2.2 q hq _ (List.mem_singleton_self _)
  have hkeeps : ∀ q ∈ [Step.sparseA3, .sparseA4, .itemBSai].map Step.patcher, ∀ e ∈ q.edits,
      ∀ e' ∈ Step.itemCSai.patcher.edits, e.Keeps e'.anchor := by
    intro q hq e he e' he'
    have hall : ∀ q ∈ [Step.sparseA3, .sparseA4, .itemBSai].map Step.patcher, ∀ e ∈ q.edits,
        ∀ e' ∈ Step.itemCSai.patcher.edits, e.keeps e'.anchor = true := by
      decide +kernel
    exact Edit.keeps_iff.mp (hall q hq e he e' he')
  exact installs_concat.mpr ⟨hfirst, hitemC.1.layers hspares hkeeps hfirst⟩

theorem fits_engineImage : Fits (fun _ => true) engineImage where
  installs f := by
    cases f with
    | sai => exact installs_engineImage_sai
    | deepGemm | nvfp4 | mlaAttention | indexer => exact installs_writeText (by decide +kernel)
  compiles _ _ := rfl

/-- An image that fits is served by its first start. -/
theorem Fits.served {compiles : ByteArray → Bool} {image : Files} (himage : Pristine image)
    (hfits : Fits compiles image) {script : Script} (hscript : script ≠ .dcp) {env : Env}
    (henv : env.installs = true) :
    ∃ t', runPhases compiles env script.phases ⟨image, none, none⟩ = (none, t') := by
  have hfirst := fit_image_served himage hfits [] none none hscript henv
  rw [runStarts, List.foldl_nil] at hfirst
  exact ⟨_, Prod.ext hfirst rfl⟩

theorem newlines_engineText (f : File) : '\r' ∉ engineText f := by
  cases f <;> decide +kernel

theorem carries_writeText_iff {p : Patcher} {text : Text} (h : '\r' ∉ text) :
    p.Carries (writeText text) ↔ occurs p.sentinel text = true := by
  rw [Patcher.Carries, readText_writeText h]
  simp

theorem pristine_engineImage : Pristine engineImage := by
  intro s hs
  rw [engineImage, carries_writeText_iff (newlines_engineText (fileOf s))] at hs
  revert hs
  cases s <;> decide +kernel

/-- An offline wheel, and a working b12x. -/
def wheelEnv : Env := ⟨false, true, false, true⟩

/-- No b12x, and pip does not get it. -/
def bareEnv : Env := ⟨false, false, false, false⟩

/-- The combined script is interrupted behind A2/A3, then fails for want of b12x behind A4. -/
def roughStarts : List Start := [⟨.sparseDcp, wheelEnv, 2⟩, ⟨.sparseDcp, bareEnv, 8⟩]

/-- The third start is served, with all layers in all files. -/
theorem served_only_patched_engineImage :
    (∃ level, Levelled engineImage level
      (runStarts (fun _ => true) roughStarts ⟨engineImage, none, none⟩).files) ∧
    Served (fun _ => true) .sparseDcp engineImage
      (runPhases (fun _ => true) wheelEnv Script.sparseDcp.phases
        (runStarts (fun _ => true) roughStarts ⟨engineImage, none, none⟩)).2.files := by
  obtain ⟨hlevel, hserved⟩ := @served_only_patched (fun _ => true) engineImage
    pristine_engineImage roughStarts none none .sparseDcp wheelEnv
  have hnone := fit_image_served pristine_engineImage fits_engineImage roughStarts none none
    (by decide : Script.sparseDcp ≠ .dcp) (rfl : wheelEnv.installs = true)
  refine ⟨hlevel, hserved ?_⟩
  rw [hnone, status]

end Glm52.RuntimePatch
