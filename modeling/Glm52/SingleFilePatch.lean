import Glm52.DcpPatches
import Glm52.SparsePatches

/-! # A patcher on its one file

Every patcher of the two scripts leaves its file as it is or writes it with all of its
edits made, and a second run finds the sentinel.  The edits are made one behind the other,
each in what the others have left; because no replacement touches an anchor that is still
to be found, they amount to one pass over the text that was read (`replaceEach`).

The pass is over the text, not over the bytes: reading turns every line end into a
newline, and so a file that is patched loses its carriage returns (`newlines_lost`). -/
namespace Glm52.SingleFilePatch
open TextReplace FilePatch

/-- The patchers of the scripts, each on one file. -/
inductive Step
  | itemA
  | itemBIndexer
  | itemBSai
  | itemCIndexer
  | itemCSai
  | sparseA2
  | sparseA3
  | sparseA4
  | sparseC
deriving DecidableEq

def Step.patcher : Step → Patcher
  | .itemA => DcpPatches.ItemA.mlaAttention
  | .itemBIndexer => DcpPatches.ItemB.indexer
  | .itemBSai => DcpPatches.ItemB.sai
  | .itemCIndexer => DcpPatches.ItemC.indexer
  | .itemCSai => DcpPatches.ItemC.sai
  | .sparseA2 => SparsePatches.deepGemm
  | .sparseA3 => SparsePatches.indexer
  | .sparseA4 => SparsePatches.DecodeReroute.indexer
  | .sparseC => SparsePatches.MoeBackend.nvfp4

/-- No edit touches the anchor of a later one, and one of them writes the sentinel. -/
structure Tidy (p : Patcher) : Prop where
  independent : Independent p.edits
  anchors : ∀ e ∈ p.edits, e.anchor ≠ []
  marked : ∃ e ∈ p.edits, p.sentinel <:+: e.repl

/-- `Tidy`, computed. -/
def tidy (p : Patcher) : Bool :=
  independent p.edits && p.edits.all (fun e => !e.anchor.isEmpty) &&
    p.edits.any fun e => occurs p.sentinel e.repl

theorem tidy_iff {p : Patcher} : tidy p = true ↔ Tidy p := by
  unfold tidy
  rw [Bool.and_eq_true, Bool.and_eq_true, independent_iff]
  constructor
  · rintro ⟨⟨hind, hanchors⟩, hmarked⟩
    exact ⟨hind, by simpa using hanchors, by simpa using hmarked⟩
  · rintro ⟨hind, hanchors, hmarked⟩
    exact ⟨⟨hind, by simpa using hanchors⟩, by simpa using hmarked⟩

theorem tidy_patcher (step : Step) : Tidy step.patcher := by
  refine tidy_iff.mp ?_
  cases step <;> decide +kernel

/-! ### What a run leaves -/

/-- The bytes of the file when the patcher has run. -/
def after (p : Patcher) (content : ByteArray) : ByteArray :=
  match p.run content with
  | .ok bytes => bytes
  | .error _ => content

/-- Left as it was: not text, or with the sentinel, or without some anchor. -/
def Untouched (p : Patcher) (content : ByteArray) : Prop :=
  after p content = content ∧
    (readText content = none ∨
      ∃ src, readText content = some src ∧
        (p.sentinel <:+: src ∨ ∃ e ∈ p.edits, ¬ e.anchor <:+: src))

/-- Written with one pass over its text, in which every edit found its anchor.  The text is
that of the bytes with its line ends read as newlines; without a carriage return it is
the file itself. -/
structure Edited (p : Patcher) (content : ByteArray) (src new : Text) : Prop where
  read : readText content = some src
  bytes : ∀ s, String.fromUTF8? content = some s → '\r' ∉ s.toList →
    src = s.toList ∧ content = writeText src
  unmarked : ¬ p.sentinel <:+: src
  pass : replaceEach p.edits 0 src = (new, [])
  written : after p content = writeText new
  reread : readText (after p content) = some new
  marked : p.sentinel <:+: new

/-- A string is the bytes it is decoded from. -/
theorem writeText_of_fromUTF8? {content : ByteArray} {s : String}
    (h : String.fromUTF8? content = some s) : writeText s.toList = content := by
  unfold String.fromUTF8? at h
  split at h
  · obtain rfl := Option.some.inj h
    simp [writeText, String.fromUTF8]
  · simp at h

section
variable {p : Patcher} {content : ByteArray}

theorem after_of_carries (h : p.Carries content) : after p content = content := by
  rw [after, h.run_eq]

theorem untouched_of_not_patchable (h : ¬ p.Patchable content) : Untouched p content := by
  rcases p.carries_or_patchable_or_foreign content with hc | hp | hf
  · obtain ⟨src, hread, hsent⟩ := id hc
    exact ⟨after_of_carries hc, Or.inr ⟨src, hread, Or.inl hsent⟩⟩
  · exact absurd hp h
  · obtain ⟨exit, hrun, -⟩ := hf.run_eq
    refine ⟨by rw [after, hrun], ?_⟩
    rcases hf with hnone | ⟨src, hread, -, e, he, hno⟩
    · exact Or.inl hnone
    · exact Or.inr ⟨src, hread, Or.inr ⟨e, he, hno⟩⟩

theorem edited_of_patchable (htidy : Tidy p) (h : p.Patchable content) :
    ∃ src new, Edited p content src new := by
  obtain ⟨src, hread, hunpatched, hreread⟩ := h.readText_edited
  have hafter : after p content = p.edited content := by rw [after, h.run_eq]
  have hnone : p.edits.filter (fun e => !occurs e.anchor src) = [] :=
    List.filter_eq_nil_iff.mpr fun e he => by simpa using hunpatched.2 e he
  have hpass := replaceEach_eq htidy.independent htidy.anchors src
  rw [hnone] at hpass
  obtain ⟨e, he, hsent⟩ := htidy.marked
  refine ⟨src, applyEdits p.edits src, hread, ?_, hunpatched.1, hpass, ?_, ?_, ?_⟩
  · intro s hs hcr
    have hsrc : src = s.toList := by
      rw [readText, hs, Option.map_some, universalNewlines_eq_self hcr] at hread
      exact (Option.some.inj hread).symm
    exact ⟨hsrc, hsrc ▸ (writeText_of_fromUTF8? hs).symm⟩
  · have hno : ¬ occurs p.sentinel src = true := by simpa using hunpatched.1
    simp only [hafter, Patcher.edited, hread, if_neg hno]
  · rw [hafter, hreread]
  · exact hsent.trans (repl_infix_applyEdits htidy.independent hunpatched.2 e he)

/-- **A second run** changes nothing. -/
theorem after_after (htidy : Tidy p) (content : ByteArray) :
    after p (after p content) = after p content := by
  by_cases h : p.Patchable content
  · obtain ⟨src, new, hedited⟩ := edited_of_patchable htidy h
    exact after_of_carries ⟨new, hedited.reread, hedited.marked⟩
  · have hsame := (untouched_of_not_patchable h).1
    rw [hsame, hsame]

end

/-- **A patcher is all or nothing on its file, and idempotent.**  Whatever the bytes of the
file, a run leaves them as they are, or writes the text with every anchor replaced where
it first stands and the sentinel in it; a second run changes nothing.  No edit changes
how often the anchor of a later one occurs, whatever text it is made in. -/
theorem single_file_patch (step : Step) :
    (∀ content,
      (Untouched step.patcher content ∨ ∃ src new, Edited step.patcher content src new) ∧
        after step.patcher (after step.patcher content) = after step.patcher content) ∧
    step.patcher.edits.Pairwise fun e e' => ∀ text,
      occurrences e'.anchor (replaceFirst e.anchor e.repl text) = occurrences e'.anchor text := by
  have htidy := tidy_patcher step
  refine ⟨fun content => ⟨?_, after_after htidy content⟩, ?_⟩
  · by_cases h : step.patcher.Patchable content
    · exact Or.inr (edited_of_patchable htidy h)
    · exact Or.inl (untouched_of_not_patchable h)
  · refine htidy.independent.imp_of_mem fun {e e'} _ he' hbefore text => ?_
    exact occurrences_replaceFirst hbefore.anchor hbefore.repl (htidy.anchors e' he') text

/-- The two lines that item A replaces, behind a line with a carriage return. -/
def carriageReturnLines : Text :=
  '\r' :: '\n' :: (DcpPatches.ItemA.anchor1 ++ DcpPatches.ItemA.anchor2)

theorem newlines_lost :
    (∀ e ∈ Step.itemA.patcher.edits, e.anchor <:+: carriageReturnLines) ∧
    after Step.itemA.patcher (writeText carriageReturnLines) ≠ writeText carriageReturnLines ∧
    after Step.itemA.patcher (writeText carriageReturnLines) ≠
      writeText (replaceEach Step.itemA.patcher.edits 0 carriageReturnLines).1 := by
  have hanchors : ∀ e ∈ Step.itemA.patcher.edits, occurs e.anchor carriageReturnLines = true := by
    decide +kernel
  have hread : readText (writeText carriageReturnLines) =
      some ('\n' :: (DcpPatches.ItemA.anchor1 ++ DcpPatches.ItemA.anchor2)) := by
    rw [readText, fromUTF8?_writeText, Option.map_some, String.toList_ofList]
    have hlines : universalNewlines carriageReturnLines =
        '\n' :: (DcpPatches.ItemA.anchor1 ++ DcpPatches.ItemA.anchor2) := by decide +kernel
    rw [hlines]
  have hsent : occurs Step.itemA.patcher.sentinel
      ('\n' :: (DcpPatches.ItemA.anchor1 ++ DcpPatches.ItemA.anchor2)) = false := by decide +kernel
  have hfound : ∀ e ∈ Step.itemA.patcher.edits, occurs e.anchor
      ('\n' :: (DcpPatches.ItemA.anchor1 ++ DcpPatches.ItemA.anchor2)) = true := by decide +kernel
  have hpatchable : Step.itemA.patcher.Patchable (writeText carriageReturnLines) :=
    ⟨_, hread, occurs_eq_false_iff.mp hsent, fun e he => occurs_iff.mp (hfound e he)⟩
  obtain ⟨src, new, hedited⟩ := edited_of_patchable (tidy_patcher .itemA) hpatchable
  refine ⟨fun e he => occurs_iff.mp (hanchors e he), ?_, ?_⟩
  · rw [after, hpatchable.run_eq]
    exact hpatchable.edited_ne
  · have hsrc : src = _ := (Option.some.inj (hread.symm.trans hedited.read)).symm
    rw [hedited.written]
    intro heq
    have hnew : (replaceEach Step.itemA.patcher.edits 0 src).1 =
        (replaceEach Step.itemA.patcher.edits 0 carriageReturnLines).1 := by
      rw [hedited.pass]
      exact writeText_injective heq
    rw [hsrc] at hnew
    revert hnew
    decide +kernel

end Glm52.SingleFilePatch
