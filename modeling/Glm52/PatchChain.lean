import Glm52.SingleFilePatch

/-! # Several patchers on one file

A file that several patchers edit is patched in layers: each patcher looks for its anchors
in what the ones before it have left.  Two things keep the layers apart.  A patcher must
not destroy the sentinel of another (`Edit.Keeps`), or the other would patch the file a
second time; and it must not write the sentinel of a later one (`Edit.Spares`), or that one
would never run.  For such a chain the sentinels in a file say how many layers it has
(`AtLevel.carries_iff`), and a patcher that runs adds the next layer, leaves the file as it
is, or gives up (`AtLevel.run`). -/
namespace TextReplace
variable {α : Type} [DecidableEq α]

/-- A text with `s` has it when the edit is made: the edit cannot touch `s`, or writes it. -/
def Edit.Keeps (e : Edit α) (s : List α) : Prop := Apart e.anchor s ∨ s <:+: e.repl

/-- The edit cannot be what brings `s` into a text. -/
def Edit.Spares (e : Edit α) (s : List α) : Prop := Apart e.anchor s ∧ Apart e.repl s

/-- `Edit.Keeps`, computed. -/
def Edit.keeps (e : Edit α) (s : List α) : Bool := apart e.anchor s || occurs s e.repl

/-- `Edit.Spares`, computed. -/
def Edit.spares (e : Edit α) (s : List α) : Bool := apart e.anchor s && apart e.repl s

theorem Edit.keeps_iff {e : Edit α} {s : List α} : e.keeps s = true ↔ e.Keeps s := by
  rw [Edit.keeps, Bool.or_eq_true, apart_iff, occurs_iff, Edit.Keeps]

theorem Edit.spares_iff {e : Edit α} {s : List α} : e.spares s = true ↔ e.Spares s := by
  rw [Edit.spares, Bool.and_eq_true, apart_iff, apart_iff, Edit.Spares]

theorem Edit.Keeps.isInfix {e : Edit α} {s text : List α} (h : e.Keeps s) (hs : s <:+: text) :
    s <:+: replaceFirst e.anchor e.repl text := by
  rcases h with hapart | hrepl
  · exact replaceFirst_keeps hapart hs
  · by_cases hocc : e.anchor <:+: text
    · obtain ⟨u, v, -, hnew⟩ := exists_replaceFirst hocc
      rw [hnew]
      exact hrepl.trans ⟨u, v, rfl⟩
    · rwa [replaceFirst_of_not_occurs hocc]

theorem infix_applyEdits_of_keeps {edits : List (Edit α)} {s : List α}
    (h : ∀ e ∈ edits, e.Keeps s) {text : List α} (hs : s <:+: text) :
    s <:+: applyEdits edits text := by
  induction edits generalizing text with
  | nil => exact hs
  | cons e edits ih =>
    rw [List.forall_mem_cons] at h
    exact ih h.2 (h.1.isInfix hs)

theorem infix_applyEdits_iff_of_spares {edits : List (Edit α)} {s : List α}
    (h : ∀ e ∈ edits, e.Spares s) (text : List α) :
    s <:+: applyEdits edits text ↔ s <:+: text := by
  induction edits generalizing text with
  | nil => rfl
  | cons e edits ih =>
    rw [List.forall_mem_cons] at h
    exact (ih h.2 _).trans (infix_replaceFirst_iff h.1.1 h.1.2 text)

end TextReplace

namespace Glm52.FilePatch
open TextReplace SingleFilePatch

namespace Patcher

/-- `p` leaves the sentinel of `q` where it is. -/
def Keeps (p q : Patcher) : Prop := ∀ e ∈ p.edits, e.Keeps q.sentinel

/-- `p` does not bring the sentinel of `q` in. -/
def Spares (p q : Patcher) : Prop := ∀ e ∈ p.edits, e.Spares q.sentinel

variable {p q : Patcher} {content : ByteArray}

/-- A patcher that runs through leaves its sentinel. -/
theorem Patchable.carries (htidy : Tidy p) (h : p.Patchable content) :
    p.Carries (p.edited content) := by
  obtain ⟨src, -, hunp, hread⟩ := h.readText_edited
  obtain ⟨e, he, hsent⟩ := htidy.marked
  exact ⟨_, hread, hsent.trans (repl_infix_applyEdits htidy.independent hunp.2 e he)⟩

/-- ... and the sentinels that were there, if it keeps them. -/
theorem Patchable.carries_of_keeps (h : p.Patchable content) (hkeeps : p.Keeps q)
    (hq : q.Carries content) : q.Carries (p.edited content) := by
  obtain ⟨src, hread, -, hedited⟩ := h.readText_edited
  obtain ⟨src', hread', hsent⟩ := hq
  obtain rfl : src = src' := by simpa [hread] using hread'
  exact ⟨_, hedited, infix_applyEdits_of_keeps hkeeps hsent⟩

/-- A sentinel that it spares was there before. -/
theorem Patchable.carries_of_spares (h : p.Patchable content) (hspares : p.Spares q)
    (hq : q.Carries (p.edited content)) : q.Carries content := by
  obtain ⟨src, hread, -, hedited⟩ := h.readText_edited
  obtain ⟨src', hread', hsent⟩ := hq
  obtain rfl : applyEdits p.edits src = src' := by simpa [hedited] using hread'
  exact ⟨src, hread, (infix_applyEdits_iff_of_spares hspares src).mp hsent⟩

/-- What a run leaves: a file with the sentinel as it is, a file to patch with all edits. -/
theorem carries_or_patchable_of_run {new : ByteArray} (h : p.run content = .ok new) :
    (p.Carries content ∧ new = content) ∨ (p.Patchable content ∧ new = p.edited content) := by
  rcases p.carries_or_patchable_or_foreign content with hc | hp | hf
  · exact Or.inl ⟨hc, by simpa [hc.run_eq] using h.symm⟩
  · exact Or.inr ⟨hp, by simpa [hp.run_eq] using h.symm⟩
  · obtain ⟨exit, hrun, -⟩ := hf.run_eq
    simp [hrun] at h

theorem foreign_of_run {exit : Exit} (h : p.run content = .error exit) : p.Foreign content := by
  rcases p.carries_or_patchable_or_foreign content with hc | hp | hf
  · simp [hc.run_eq] at h
  · simp [hp.run_eq] at h
  · exact hf

/-- When a patcher is through, its sentinel is there. -/
theorem carries_of_run (htidy : Tidy p) {new : ByteArray} (h : p.run content = .ok new) :
    p.Carries new := by
  rcases carries_or_patchable_of_run h with ⟨hc, rfl⟩ | ⟨hp, rfl⟩
  · exact hc
  · exact hp.carries htidy

theorem carries_of_run_of_keeps (hkeeps : p.Keeps q) {new : ByteArray}
    (h : p.run content = .ok new) (hq : q.Carries content) : q.Carries new := by
  rcases carries_or_patchable_of_run h with ⟨-, rfl⟩ | ⟨hp, rfl⟩
  · exact hq
  · exact hp.carries_of_keeps hkeeps hq

end Patcher

/-! ### Layers -/

/-- The file with the edits of all patchers made, one patcher behind the other. -/
def layers (chain : List Patcher) (content : ByteArray) : ByteArray :=
  chain.foldl (fun content p => p.edited content) content

/-- Every patcher finds its anchors, and no sentinel of its own, when its turn comes. -/
def Installs : List Patcher → ByteArray → Prop
  | [], _ => True
  | p :: chain, content => p.Patchable content ∧ Installs chain (p.edited content)

/-- `Installs` in a text that is written, computed. -/
def installs : List Patcher → Text → Bool
  | [], _ => true
  | p :: chain, text => !text.contains '\r' && !occurs p.sentinel text &&
    p.edits.all (fun e => occurs e.anchor text) && installs chain (applyEdits p.edits text)

/-- The patchers of a chain keep the sentinels of the ones before them and spare those of
the ones behind them. -/
structure Layered (chain : List Patcher) : Prop where
  tidy : ∀ p ∈ chain, Tidy p
  keeps : chain.Pairwise fun p q => q.Keeps p
  spares : chain.Pairwise Patcher.Spares

section
variable {chain : List Patcher} {content image : ByteArray}

theorem installs_append {chain' : List Patcher} : Installs (chain ++ chain') content ↔
    Installs chain content ∧ Installs chain' (layers chain content) := by
  induction chain generalizing content with
  | nil => simp [Installs, layers]
  | cons q chain ih =>
    simp only [List.cons_append, Installs, ih, and_assoc, layers, List.foldl_cons]

theorem installs_concat {p : Patcher} : Installs (chain ++ [p]) content ↔
    Installs chain content ∧ p.Patchable (layers chain content) := by
  simp only [installs_append, Installs, and_true]

theorem edited_writeText {p : Patcher} {text : Text} (h : '\r' ∉ text)
    (hsent : occurs p.sentinel text = false) :
    p.edited (writeText text) = writeText (applyEdits p.edits text) := by
  simp [Patcher.edited, readText_writeText h, hsent]

theorem installs_writeText {text : Text} (h : installs chain text = true) :
    Installs chain (writeText text) := by
  induction chain generalizing text with
  | nil => trivial
  | cons p chain ih =>
    simp only [installs, Bool.and_eq_true, Bool.not_eq_true', List.contains_eq_mem,
      decide_eq_false_iff_not] at h
    obtain ⟨⟨⟨hline, hsent⟩, hall⟩, hrest⟩ := h
    refine ⟨⟨text, readText_writeText hline, occurs_eq_false_iff.mp hsent,
      fun e he => occurs_iff.mp (List.all_eq_true.mp hall e he)⟩, ?_⟩
    rw [edited_writeText hline hsent]
    exact ih hrest

theorem layers_concat {p : Patcher} :
    layers (chain ++ [p]) content = p.edited (layers chain content) := by
  rw [layers, List.foldl_append]
  rfl

theorem carries_layers_of_keeps {q : Patcher} (hkeeps : ∀ p ∈ chain, p.Keeps q)
    (h : Installs chain content) (hq : q.Carries content) : q.Carries (layers chain content) := by
  induction chain generalizing content with
  | nil => exact hq
  | cons p chain ih =>
    rw [List.forall_mem_cons] at hkeeps
    exact ih hkeeps.2 h.2 (h.1.carries_of_keeps hkeeps.1 hq)

theorem carries_of_layers {q : Patcher} (hspares : ∀ p ∈ chain, p.Spares q)
    (h : Installs chain content) (hq : q.Carries (layers chain content)) : q.Carries content := by
  induction chain generalizing content with
  | nil => exact hq
  | cons p chain ih =>
    rw [List.forall_mem_cons] at hspares
    exact h.1.carries_of_spares hspares.1 (ih hspares.2 h.2 hq)

/-- What can be patched can still be patched behind patchers that keep its anchors and do
not bring its sentinel in. -/
theorem Patcher.Patchable.layers {p : Patcher} (hspares : ∀ q ∈ chain, q.Spares p)
    (hkeeps : ∀ q ∈ chain, ∀ e ∈ q.edits, ∀ e' ∈ p.edits, e.Keeps e'.anchor)
    (h : Installs chain content) (hp : p.Patchable content) :
    p.Patchable (layers chain content) := by
  induction chain generalizing content with
  | nil => exact hp
  | cons q chain ih =>
    rw [List.forall_mem_cons] at hspares hkeeps
    obtain ⟨src, hread, -, hedited⟩ := h.1.readText_edited
    obtain ⟨src', hread', hsent, hall⟩ := hp
    obtain rfl : src = src' := by simpa [hread] using hread'
    refine ih hspares.2 hkeeps.2 h.2 ⟨_, hedited, fun hin => hsent ?_, fun e' he' => ?_⟩
    · exact (infix_applyEdits_iff_of_spares hspares.1 src).mp hin
    · exact infix_applyEdits_of_keeps (fun e he => hkeeps.1 e he e' he') (hall e' he')

/-- The sentinels of all layers are there. -/
theorem Layered.carries (hl : Layered chain) (h : Installs chain content) :
    ∀ p ∈ chain, p.Carries (layers chain content) := by
  induction chain generalizing content with
  | nil => simp
  | cons p chain ih =>
    have hl' : Layered chain :=
      ⟨fun q hq => hl.tidy q (List.mem_cons_of_mem p hq), (List.pairwise_cons.mp hl.keeps).2,
        (List.pairwise_cons.mp hl.spares).2⟩
    rw [List.forall_mem_cons]
    have hhere : p.Carries (p.edited content) := h.1.carries (hl.tidy p (by simp))
    have hkept := carries_layers_of_keeps (List.pairwise_cons.mp hl.keeps).1 h.2 hhere
    exact ⟨hkept, ih hl' h.2⟩

/-! ### The level of a file -/

/-- The file is the image's with the first `k` patchers of the chain installed. -/
structure AtLevel (chain : List Patcher) (image : ByteArray) (k : ℕ) (content : ByteArray) :
    Prop where
  le : k ≤ chain.length
  installs : Installs (chain.take k) image
  eq : content = layers (chain.take k) image

/-- Of an image without sentinels, the sentinels in the file are those of its layers. -/
theorem AtLevel.carries_iff (hl : Layered chain) (hpristine : ∀ p ∈ chain, ¬ p.Carries image)
    {k : ℕ} (h : AtLevel chain image k content) {i : ℕ} {p : Patcher} (hp : chain[i]? = some p) :
    p.Carries content ↔ i < k := by
  obtain ⟨hi, rfl⟩ := List.getElem?_eq_some_iff.mp hp
  rw [h.eq]
  constructor
  · intro hcarries
    by_contra hki
    refine hpristine _ (List.getElem_mem hi)
      (carries_of_layers (fun q hq => ?_) h.installs hcarries)
    obtain ⟨j, hj, rfl⟩ := List.mem_take_iff_getElem.mp hq
    exact List.pairwise_iff_getElem.mp hl.spares j i (by omega) hi (by omega)
  · intro hik
    have hl' : Layered (chain.take k) :=
      ⟨fun q hq => hl.tidy q (List.mem_of_mem_take hq), hl.keeps.sublist (List.take_sublist _ _),
        hl.spares.sublist (List.take_sublist _ _)⟩
    exact hl'.carries h.installs _ (List.mem_take_iff_getElem.mpr ⟨i, by omega, rfl⟩)

/-- **A run on a file with `k` layers** of the patcher that makes layer `i ≤ k`: the layer
is there already, or it is the next one and is added. -/
theorem AtLevel.run (hl : Layered chain) (hpristine : ∀ p ∈ chain, ¬ p.Carries image)
    {k : ℕ} (h : AtLevel chain image k content) {i : ℕ} {p : Patcher} (hp : chain[i]? = some p)
    (hik : i ≤ k) {new : ByteArray} (hrun : p.run content = .ok new) :
    AtLevel chain image (max k (i + 1)) new := by
  have hcarries := h.carries_iff hl hpristine hp
  rcases Patcher.carries_or_patchable_of_run hrun with ⟨hc, rfl⟩ | ⟨hpatch, rfl⟩
  · rw [max_eq_left (hcarries.mp hc)]
    exact h
  · obtain rfl : i = k := by
      have hnot : ¬ i < k := fun hlt => hpatch.not_carries (hcarries.mpr hlt)
      omega
    obtain ⟨hi, rfl⟩ := List.getElem?_eq_some_iff.mp hp
    have htake : chain.take (i + 1) = chain.take i ++ [chain[i]] :=
      (List.take_append_getElem hi).symm
    rw [max_eq_right (Nat.le_succ i)]
    refine ⟨hi, ?_, ?_⟩
    · rw [htake, installs_concat, ← h.eq]
      exact ⟨h.installs, hpatch⟩
    · rw [htake, layers_concat, ← h.eq]

/-- On an image in which the whole chain can be installed, the patcher is through. -/
theorem AtLevel.exists_run (hl : Layered chain) (hpristine : ∀ p ∈ chain, ¬ p.Carries image)
    (hinstalls : Installs chain image) {k : ℕ} (h : AtLevel chain image k content) {i : ℕ}
    {p : Patcher} (hp : chain[i]? = some p) (hik : i ≤ k) : ∃ new, p.run content = .ok new := by
  rcases Nat.lt_or_eq_of_le hik with hlt | rfl
  · exact ⟨content, ((h.carries_iff hl hpristine hp).mpr hlt).run_eq⟩
  · obtain ⟨hi, rfl⟩ := List.getElem?_eq_some_iff.mp hp
    have hnext := (installs_append.mp
      (by rwa [List.take_append_drop] : Installs (chain.take i ++ chain.drop i) image)).2
    rw [List.drop_eq_getElem_cons hi, ← h.eq] at hnext
    exact ⟨_, hnext.1.run_eq⟩

end

end Glm52.FilePatch
