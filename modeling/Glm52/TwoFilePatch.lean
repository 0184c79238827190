import Glm52.DcpPatches
import Glm52.SparsePatches

/-! # Patch items that edit two files

Items B and C and the sparse patches A2/A3 each patch one file, then another, and then
compile both.  A file is written as soon as its own patcher is through: when the second
patcher gives up, or when a file does not compile, the first file has been rewritten
already.  `two_file_patch_iff` says for which pairs of contents an item nevertheless
patches both files or neither. -/
namespace Glm52.TwoFilePatch
open TextReplace FilePatch

/-- The two files of an item. -/
structure Files where
  first : ByteArray
  second : ByteArray

/-- The patchers of the two files. -/
structure Patchers where
  first : Patcher
  second : Patcher

/-- The items: B and C on `indexer.py` and `sparse_attn_indexer.py`, A2/A3 on
`deep_gemm.py` and `sparse_attn_indexer.py`. -/
inductive Item
  | itemB
  | itemC
  | sparse
deriving DecidableEq

/-- The patchers of an item, in the order in which they run. -/
def Item.patchers : Item → Patchers
  | .itemB => ⟨DcpPatches.ItemB.indexer, DcpPatches.ItemB.sai⟩
  | .itemC => ⟨DcpPatches.ItemC.indexer, DcpPatches.ItemC.sai⟩
  | .sparse => ⟨SparsePatches.deepGemm, SparsePatches.indexer⟩

section
variable (ps : Patchers) (compiles : ByteArray → Bool) (files : Files)

/-- `py_compile` of both files. -/
def compileBoth : Exit :=
  if compiles files.first ∧ compiles files.second then .success else .raised "PyCompileError"

/-- The first patcher, the second, and `py_compile`: how the process ends, and the files. -/
def Patchers.run : Exit × Files :=
  match ps.first.run files.first with
  | .error exit => (exit, files)
  | .ok first =>
    let files := { files with first := first }
    match ps.second.run files.second with
    | .error exit => (exit, files)
    | .ok second =>
      let files := { files with second := second }
      (compileBoth compiles files, files)

/-- Success and both files fully patched, or failure and both files as they were. -/
def Patchers.Transactional : Prop :=
  ((ps.run compiles files).1.code = 0 ∧
      ps.first.FullyPatched (ps.run compiles files).2.first ∧
      ps.second.FullyPatched (ps.run compiles files).2.second) ∨
    ((ps.run compiles files).1.code ≠ 0 ∧ (ps.run compiles files).2 = files)

/-- The contents that are safe: the first file is foreign; or it has the sentinel and the
second is foreign; or neither is foreign, and either both compile with the edits made and
the ones that have the sentinel are fully patched, or both have the sentinel. -/
def Patchers.Safe : Prop :=
  ps.first.Foreign files.first ∨
  (ps.first.Carries files.first ∧ ps.second.Foreign files.second) ∨
  (¬ ps.first.Foreign files.first ∧ ¬ ps.second.Foreign files.second ∧
    if compiles (ps.first.edited files.first) ∧ compiles (ps.second.edited files.second) then
      (ps.first.Carries files.first → ps.first.FullyPatched files.first) ∧
      (ps.second.Carries files.second → ps.second.FullyPatched files.second)
    else ps.first.Carries files.first ∧ ps.second.Carries files.second)

end

section
variable {p : Patcher} {content : ByteArray}

/-- A patcher that gets through leaves the file with all edits made. -/
theorem run_eq_edited (h : ¬ p.Foreign content) : p.run content = .ok (p.edited content) := by
  rcases p.carries_or_patchable_or_foreign content with hc | hp | hf
  · rw [hc.run_eq, hc.edited_eq]
  · exact hp.run_eq
  · exact absurd hf h

/-- It leaves the file as it was if and only if the sentinel was there. -/
theorem edited_eq_self_iff (h : ¬ p.Foreign content) :
    p.edited content = content ↔ p.Carries content := by
  rcases p.carries_or_patchable_or_foreign content with hc | hp | hf
  · exact iff_of_true hc.edited_eq hc
  · exact iff_of_false hp.edited_ne hp.not_carries
  · exact absurd hf h

/-- It leaves a fully patched file if and only if the sentinel, where it was, stood in one. -/
theorem fullyPatched_edited_iff (h : ¬ p.Foreign content) :
    p.FullyPatched (p.edited content) ↔ (p.Carries content → p.FullyPatched content) := by
  rcases p.carries_or_patchable_or_foreign content with hc | hp | hf
  · rw [hc.edited_eq]
    exact ⟨fun hfull _ => hfull, fun himp => himp hc⟩
  · exact iff_of_true hp.fullyPatched fun hc => absurd hc hp.not_carries
  · exact absurd hf h

end

section
variable {ps : Patchers} (compiles : ByteArray → Bool) (files : Files)

/-- A first file that is foreign ends the item before anything is written. -/
theorem run_of_first_foreign (h : ps.first.Foreign files.first) :
    ∃ exit, ps.run compiles files = (exit, files) ∧ exit.code ≠ 0 := by
  obtain ⟨exit, hrun, hcode⟩ := h.run_eq
  exact ⟨exit, by rw [Patchers.run, hrun], hcode⟩

/-- A second file that is foreign ends the item with the first file edited. -/
theorem run_of_second_foreign (h : ¬ ps.first.Foreign files.first)
    (h' : ps.second.Foreign files.second) :
    ∃ exit, ps.run compiles files =
      (exit, { files with first := ps.first.edited files.first }) ∧ exit.code ≠ 0 := by
  obtain ⟨exit, hrun, hcode⟩ := h'.run_eq
  exact ⟨exit, by simp only [Patchers.run, run_eq_edited h, hrun], hcode⟩

/-- Otherwise both files are edited, and compiled. -/
theorem run_of_not_foreign (h : ¬ ps.first.Foreign files.first)
    (h' : ¬ ps.second.Foreign files.second) :
    ps.run compiles files =
      (compileBoth compiles ⟨ps.first.edited files.first, ps.second.edited files.second⟩,
        ⟨ps.first.edited files.first, ps.second.edited files.second⟩) := by
  simp only [Patchers.run, run_eq_edited h, run_eq_edited h']

/-- **When two patchers are one transaction.** -/
theorem Patchers.transactional_iff (ps : Patchers) (compiles : ByteArray → Bool)
    (files : Files) : ps.Transactional compiles files ↔ ps.Safe compiles files := by
  obtain ⟨first, second⟩ := files
  -- the run stops before the first file, before the second, or at `py_compile`
  by_cases h₁ : ps.first.Foreign first
  · obtain ⟨exit, hrun, hcode⟩ := run_of_first_foreign compiles ⟨first, second⟩ h₁
    simp [Transactional, Safe, hrun, hcode, h₁]
  · by_cases h₂ : ps.second.Foreign second
    · obtain ⟨exit, hrun, hcode⟩ := run_of_second_foreign compiles ⟨first, second⟩ h₁ h₂
      simp [Transactional, Safe, hrun, hcode, h₁, h₂, edited_eq_self_iff h₁]
    · have hrun := run_of_not_foreign compiles ⟨first, second⟩ h₁ h₂
      by_cases hok : compiles (ps.first.edited first) ∧ compiles (ps.second.edited second)
      · have hexit : compileBoth compiles ⟨ps.first.edited first, ps.second.edited second⟩ =
            .success := if_pos hok
        simp [Transactional, Safe, hrun, hexit, Exit.code, h₁, h₂, hok,
          fullyPatched_edited_iff h₁, fullyPatched_edited_iff h₂]
      · have hexit : compileBoth compiles ⟨ps.first.edited first, ps.second.edited second⟩ =
            .raised "PyCompileError" := if_neg hok
        simp [Transactional, Safe, hrun, hexit, Exit.code, h₁, h₂, if_neg hok,
          edited_eq_self_iff h₁, edited_eq_self_iff h₂]

/-- A file to patch beside a file to refuse is a pair that ends half patched. -/
theorem not_transactional_of_second_foreign {p p' : Patcher} (compiles : ByteArray → Bool)
    {first second : ByteArray} (h : p.Patchable first) (h' : p'.Foreign second) :
    ¬ (Patchers.mk p p').Transactional compiles ⟨first, second⟩ := by
  rw [Patchers.transactional_iff]
  rintro (hforeign | ⟨hcarries, -⟩ | ⟨-, hforeign, -⟩)
  · exact h.not_foreign hforeign
  · exact h.not_carries hcarries
  · exact hforeign h'

end

/-- **When an item patches both files or neither.**  For every pair of contents and
whatever compiles, the run of an item is a transaction exactly on the safe contents. -/
theorem two_file_patch_iff (item : Item) (compiles : ByteArray → Bool) (files : Files) :
    item.patchers.Transactional compiles files ↔ item.patchers.Safe compiles files :=
  item.patchers.transactional_iff compiles files

/-- The anchors that item B looks for in `indexer.py`. -/
def indexerAnchors : Text :=
  DcpPatches.ItemB.a1 ++ DcpPatches.ItemB.a2 ++ DcpPatches.ItemB.a3

theorem indexerAnchors_patchable :
    DcpPatches.ItemB.indexer.Patchable (writeText indexerAnchors) := by
  have hread := readText_writeText (show '\r' ∉ indexerAnchors by decide +kernel)
  have hsent : occurs DcpPatches.ItemB.sent indexerAnchors = false := by decide +kernel
  have hall : ∀ e ∈ DcpPatches.ItemB.indexer.edits, occurs e.anchor indexerAnchors = true := by
    decide +kernel
  exact ⟨indexerAnchors, hread, occurs_eq_false_iff.mp hsent,
    fun e he => occurs_iff.mp (hall e he)⟩

theorem empty_foreign : DcpPatches.ItemB.sai.Foreign (writeText []) := by
  have hread : readText (writeText []) = some [] := readText_writeText List.not_mem_nil
  have hsent : occurs DcpPatches.ItemB.sent [] = false := by decide
  have hanchor : occurs DcpPatches.ItemB.aR1 [] = false := by decide
  exact Or.inr ⟨[], hread, occurs_eq_false_iff.mp hsent, _, List.mem_cons_self,
    occurs_eq_false_iff.mp hanchor⟩

/-- An `indexer.py` of these lines beside an empty `sparse_attn_indexer.py`: the metadata
builder is rewritten, its consumer is refused. -/
theorem half_applied_pair :
    ¬ Item.itemB.patchers.Transactional (fun _ => true)
      ⟨writeText indexerAnchors, writeText []⟩ := by
  have hpatchers : Item.itemB.patchers =
      ⟨DcpPatches.ItemB.indexer, DcpPatches.ItemB.sai⟩ := rfl
  rw [hpatchers]
  exact not_transactional_of_second_foreign _ indexerAnchors_patchable empty_foreign

end Glm52.TwoFilePatch
