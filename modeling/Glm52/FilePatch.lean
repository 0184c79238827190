import Glm52.TextReplace

/-! # Patching a source file in place

The patch scripts edit the files of an installed engine.  A patcher reads a file as text,
does nothing if its sentinel is there, and otherwise replaces the first occurrence of each
of its anchors, or gives up with a message and a status if an anchor is not to be found.
The scripts have two ways of looking for the anchors: all of them before the first
replacement (`patchFile`), or each when its turn comes (`rewriteFile`).  For edits that do
not touch each other's anchors both do the same (`Rewrites`). -/
namespace Glm52.FilePatch
open TextReplace

/-- The text of a file as Python reads it. -/
abbrev Text := List Char

/-- The characters of a string, which are written out when the literal is elaborated. -/
def txt (s : String) {text : Text} (_h : s = String.ofList text := by exact rfl) : Text := text

/-- A text given by its lines. -/
def lines (ls : List Text) : Text := ls.flatMap fun l => l ++ ['\n']

/-- Every line end is read as a newline. -/
def universalNewlines : Text → Text
  | '\r' :: '\n' :: rest => '\n' :: universalNewlines rest
  | '\r' :: rest => '\n' :: universalNewlines rest
  | c :: rest => c :: universalNewlines rest
  | [] => []

/-- `open(path).read()`; a file that is not UTF-8 cannot be read. -/
def readText (content : ByteArray) : Option Text :=
  (String.fromUTF8? content).map fun s => universalNewlines s.toList

/-- `open(path, "w").write(text)`. -/
def writeText (text : Text) : ByteArray := (String.ofList text).toUTF8

theorem universalNewlines_eq_self {text : Text} (h : '\r' ∉ text) :
    universalNewlines text = text := by
  induction text using universalNewlines.induct with
  | case1 rest ih => simp at h
  | case2 rest hne ih => simp at h
  | case3 c rest hcrlf hcr ih =>
    rw [universalNewlines, ih (fun hmem => h (List.mem_cons_of_mem c hmem))]
    · exact hcrlf
    · exact hcr
  | case4 => rfl

theorem not_mem_universalNewlines (text : Text) : '\r' ∉ universalNewlines text := by
  induction text using universalNewlines.induct with
  | case1 rest ih => simpa [universalNewlines] using ih
  | case2 rest hne ih =>
    rw [universalNewlines]
    · simpa using ih
    · exact hne
  | case3 c rest hcrlf hcr ih =>
    rw [universalNewlines]
    · simp only [List.mem_cons, not_or]
      exact ⟨fun h => hcr h.symm, ih⟩
    · exact hcrlf
    · exact hcr
  | case4 => simp [universalNewlines]

/-- What is read has no carriage return. -/
theorem not_mem_readText {content : ByteArray} {src : Text} (h : readText content = some src) :
    '\r' ∉ src := by
  obtain ⟨s, -, rfl⟩ := Option.map_eq_some_iff.mp h
  exact not_mem_universalNewlines s.toList

/-- What is written is decoded to the characters that were written. -/
theorem fromUTF8?_writeText (text : Text) :
    String.fromUTF8? (writeText text) = some (String.ofList text) := by
  rw [writeText, String.fromUTF8?, String.toUTF8_eq_toByteArray,
    dif_pos (String.ofList text).isValidUTF8]
  rfl

/-- A text without carriage returns is read back as it was written. -/
theorem readText_writeText {text : Text} (h : '\r' ∉ text) :
    readText (writeText text) = some text := by
  rw [readText, fromUTF8?_writeText, Option.map_some, String.toList_ofList,
    universalNewlines_eq_self h]

theorem writeText_injective {text text' : Text} (h : writeText text = writeText text') :
    text = text' := by
  have hdecoded := fromUTF8?_writeText text
  rw [h, fromUTF8?_writeText] at hdecoded
  exact (String.ofList_injective (Option.some.inj hdecoded)).symm

/-! ### The two patchers -/

/-- A line on stderr and a status for `sys.exit`. -/
structure Fatal where
  message : String
  code : ℕ
deriving DecidableEq

/-- A patcher that looks for all anchors first.  `none`: there is nothing to write. -/
def patchFile (sent : Text) (file : String) (edits : List (String × Edit Char)) (src : Text) :
    Except Fatal (Option Text) :=
  if occurs sent src then .ok none
  else
    match edits.find? fun e => !occurs e.2.anchor src with
    | some e => .error ⟨"   FATAL " ++ file ++ " anchor " ++ e.1 ++ " not found", 1⟩
    | none => .ok (some (applyEdits (edits.map Prod.snd) src))

/-- The edits in turn, each in what the ones before it have left. -/
def rewriteEdits : List (Edit Char × Fatal) → Text → Except Fatal Text
  | [], src => .ok src
  | (e, fatal) :: edits, src =>
    if occurs e.anchor src then rewriteEdits edits (replaceFirst e.anchor e.repl src)
    else .error fatal

/-- A patcher that looks for an anchor when its turn comes. -/
def rewriteFile (sentinel : Text) (edits : List (Edit Char × Fatal)) (src : Text) :
    Except Fatal (Option Text) :=
  if occurs sentinel src then .ok none else (rewriteEdits edits src).map some

/-- What a patcher does with the text of a file: it leaves a text with the sentinel alone,
applies the edits if all anchors are there, and gives up with a status otherwise. -/
structure Rewrites (sentinel : Text) (edits : List (Edit Char))
    (rewrite : Text → Except Fatal (Option Text)) : Prop where
  skip : ∀ {src}, sentinel <:+: src → rewrite src = .ok none
  patch : ∀ {src}, ¬ sentinel <:+: src → (∀ e ∈ edits, e.anchor <:+: src) →
    rewrite src = .ok (some (applyEdits edits src))
  abort : ∀ {src}, ¬ sentinel <:+: src → (¬ ∀ e ∈ edits, e.anchor <:+: src) →
    ∃ fatal, rewrite src = .error fatal ∧ fatal.code ≠ 0

theorem patchFile_rewrites (sent : Text) (file : String) (edits : List (String × Edit Char)) :
    Rewrites sent (edits.map Prod.snd) (patchFile sent file edits) where
  skip h := by rw [patchFile, if_pos (occurs_iff.mpr h)]
  patch {src} hsent hall := by
    have hnone : (edits.find? fun e => !occurs e.2.anchor src) = none := by
      simpa using fun n e he => hall e (List.mem_map_of_mem he)
    rw [patchFile, if_neg (by simpa using hsent), hnone]
  abort {src} hsent hmissing := by
    rw [patchFile, if_neg (by simpa using hsent)]
    cases hfind : edits.find? fun e => !occurs e.2.anchor src with
    | none =>
      refine absurd (fun e he => ?_) hmissing
      obtain ⟨ne, hne, rfl⟩ := List.mem_map.mp he
      simpa using List.find?_eq_none.mp hfind ne hne
    | some e => exact ⟨_, rfl, Nat.one_ne_zero⟩

theorem rewriteEdits_ok {edits : List (Edit Char × Fatal)}
    (hind : Independent (edits.map Prod.fst)) {src : Text}
    (hall : ∀ e ∈ edits.map Prod.fst, e.anchor <:+: src) :
    rewriteEdits edits src = .ok (applyEdits (edits.map Prod.fst) src) := by
  induction edits generalizing src with
  | nil => rfl
  | cons ef edits ih =>
    obtain ⟨e, fatal⟩ := ef
    rw [List.map_cons, List.forall_mem_cons] at hall
    rw [rewriteEdits, if_pos (occurs_iff.mpr hall.1), List.map_cons, applyEdits_cons]
    exact ih (List.pairwise_cons.mp hind).2 ((hind.forall_infix_iff src).mpr hall.2)

theorem rewriteEdits_error {edits : List (Edit Char × Fatal)}
    (hind : Independent (edits.map Prod.fst)) {src : Text}
    (hmissing : ¬ ∀ e ∈ edits.map Prod.fst, e.anchor <:+: src) :
    ∃ ef ∈ edits, rewriteEdits edits src = .error ef.2 := by
  induction edits generalizing src with
  | nil => simp at hmissing
  | cons ef edits ih =>
    obtain ⟨e, fatal⟩ := ef
    rw [List.map_cons, List.forall_mem_cons] at hmissing
    rw [rewriteEdits]
    -- the first edit fails, or a later one whose anchor was missing from the start
    by_cases hocc : e.anchor <:+: src
    · have hlater := fun hall => hmissing ⟨hocc, (hind.forall_infix_iff src).mp hall⟩
      obtain ⟨ef, hef, herror⟩ := ih (List.pairwise_cons.mp hind).2 hlater
      rw [if_pos (occurs_iff.mpr hocc)]
      exact ⟨ef, List.mem_cons_of_mem _ hef, herror⟩
    · rw [if_neg (by simpa using hocc)]
      exact ⟨(e, fatal), by simp, rfl⟩

theorem rewriteFile_rewrites (sentinel : Text) {edits : List (Edit Char × Fatal)}
    (hind : Independent (edits.map Prod.fst)) (hcodes : ∀ ef ∈ edits, ef.2.code ≠ 0) :
    Rewrites sentinel (edits.map Prod.fst) (rewriteFile sentinel edits) where
  skip h := by rw [rewriteFile, if_pos (occurs_iff.mpr h)]
  patch hsent hall := by
    rw [rewriteFile, if_neg (by simpa using hsent), rewriteEdits_ok hind hall]
    rfl
  abort hsent hmissing := by
    obtain ⟨ef, hef, herror⟩ := rewriteEdits_error hind hmissing
    rw [rewriteFile, if_neg (by simpa using hsent), herror]
    exact ⟨ef.2, rfl, hcodes ef hef⟩

/-! ### A patcher on the bytes of its file -/

/-- A patcher of the scripts: its sentinel, its edits, and what it does with a text.
Every edit writes more than it removes, and no replacement has a carriage return. -/
structure Patcher where
  sentinel : Text
  edits : List (Edit Char)
  rewrite : Text → Except Fatal (Option Text)
  rewrites : Rewrites sentinel edits rewrite
  nonempty : edits ≠ []
  grows : ∀ e ∈ edits, e.anchor.length < e.repl.length
  newlines : ∀ e ∈ edits, '\r' ∉ e.repl

/-- How a process ends. -/
inductive Exit
  | success
  | fatal (f : Fatal)
  /-- an exception that nothing catches -/
  | raised (exception : String)
deriving DecidableEq

/-- The exit status. -/
def Exit.code : Exit → ℕ
  | .success => 0
  | .fatal f => f.code
  | .raised _ => 1

namespace Patcher
variable (p : Patcher)

/-- The patcher on a file: the bytes it leaves there, or how the process ends. -/
def run (content : ByteArray) : Except Exit ByteArray :=
  match readText content with
  | none => .error (.raised "UnicodeDecodeError")
  | some src =>
    -- the file is opened for writing only when there is a new text
    match p.rewrite src with
    | .error f => .error (.fatal f)
    | .ok none => .ok content
    | .ok (some new) => .ok (writeText new)

/-- A text to patch: no sentinel, and every anchor. -/
def Unpatched (src : Text) : Prop :=
  ¬ p.sentinel <:+: src ∧ ∀ e ∈ p.edits, e.anchor <:+: src

/-- The file has the sentinel. -/
def Carries (content : ByteArray) : Prop :=
  ∃ src, readText content = some src ∧ p.sentinel <:+: src

/-- The file has no sentinel and every anchor. -/
def Patchable (content : ByteArray) : Prop :=
  ∃ src, readText content = some src ∧ p.Unpatched src

/-- The file is not text, or has neither the sentinel nor all anchors. -/
def Foreign (content : ByteArray) : Prop :=
  readText content = none ∨
    ∃ src, readText content = some src ∧ ¬ p.sentinel <:+: src ∧
      ∃ e ∈ p.edits, ¬ e.anchor <:+: src

/-- The file is a file to patch with all edits made. -/
def FullyPatched (content : ByteArray) : Prop :=
  ∃ src, p.Unpatched src ∧ readText content = some (applyEdits p.edits src)

/-- The bytes of the file with all edits made, for a file that has no sentinel. -/
def edited (content : ByteArray) : ByteArray :=
  match readText content with
  | none => content
  | some src =>
    if occurs p.sentinel src then content else writeText (applyEdits p.edits src)

/-- A file has the sentinel, or is to be patched, or is foreign. -/
theorem carries_or_patchable_or_foreign (content : ByteArray) :
    p.Carries content ∨ p.Patchable content ∨ p.Foreign content := by
  cases hread : readText content with
  | none => exact Or.inr (Or.inr (Or.inl hread))
  | some src =>
    by_cases hsent : p.sentinel <:+: src
    · exact Or.inl ⟨src, hread, hsent⟩
    · by_cases hall : ∀ e ∈ p.edits, e.anchor <:+: src
      · exact Or.inr (Or.inl ⟨src, hread, hsent, hall⟩)
      · push Not at hall
        exact Or.inr (Or.inr (Or.inr ⟨src, hread, hsent, hall⟩))

variable {p} {content : ByteArray}

theorem Carries.not_foreign (h : p.Carries content) : ¬ p.Foreign content := by
  obtain ⟨src, hread, hsent⟩ := h
  rintro (hnone | ⟨src', hread', hno, -⟩)
  · simp [hnone] at hread
  · obtain rfl : src = src' := by simpa [hread] using hread'
    exact hno hsent

theorem Patchable.not_foreign (h : p.Patchable content) : ¬ p.Foreign content := by
  obtain ⟨src, hread, hsent, hall⟩ := h
  rintro (hnone | ⟨src', hread', -, e, he, hno⟩)
  · simp [hnone] at hread
  · obtain rfl : src = src' := by simpa [hread] using hread'
    exact hno (hall e he)

theorem Patchable.not_carries (h : p.Patchable content) : ¬ p.Carries content := by
  obtain ⟨src, hread, hno, -⟩ := h
  rintro ⟨src', hread', hsent⟩
  obtain rfl : src = src' := by simpa [hread] using hread'
  exact hno hsent

/-- A foreign file ends the process with a status. -/
theorem Foreign.run_eq (h : p.Foreign content) :
    ∃ exit, p.run content = .error exit ∧ exit.code ≠ 0 := by
  rcases h with hnone | ⟨src, hread, hsent, e, he, hno⟩
  · exact ⟨.raised "UnicodeDecodeError", by rw [run, hnone], Nat.one_ne_zero⟩
  · obtain ⟨f, hf, hcode⟩ := p.rewrites.abort hsent fun hall => hno (hall e he)
    exact ⟨.fatal f, by simp only [run, hread, hf], hcode⟩

/-- A file with the sentinel stays. -/
theorem Carries.run_eq (h : p.Carries content) : p.run content = .ok content := by
  obtain ⟨src, hread, hsent⟩ := h
  simp only [run, hread, p.rewrites.skip hsent]

theorem Carries.edited_eq (h : p.Carries content) : p.edited content = content := by
  obtain ⟨src, hread, hsent⟩ := h
  simp only [edited, hread, if_pos (occurs_iff.mpr hsent)]

/-- A file to patch is written with all edits made. -/
theorem Patchable.run_eq (h : p.Patchable content) : p.run content = .ok (p.edited content) := by
  obtain ⟨src, hread, hsent, hall⟩ := h
  have hno : ¬ occurs p.sentinel src = true := by simpa using hsent
  simp only [run, edited, hread, p.rewrites.patch hsent hall, if_neg hno]

theorem Patchable.readText_edited (h : p.Patchable content) :
    ∃ src, readText content = some src ∧ p.Unpatched src ∧
      readText (p.edited content) = some (applyEdits p.edits src) := by
  obtain ⟨src, hread, hunp⟩ := h
  have hno : ¬ occurs p.sentinel src = true := by simpa using hunp.1
  have hcr : '\r' ∉ applyEdits p.edits src := by
    intro hmem
    rcases mem_applyEdits hmem with hmem | ⟨e, he, hmem⟩
    · exact not_mem_readText hread hmem
    · exact p.newlines e he hmem
  refine ⟨src, hread, hunp, ?_⟩
  simp only [edited, hread, if_neg hno, readText_writeText hcr]

/-- What is written is fully patched. -/
theorem Patchable.fullyPatched (h : p.Patchable content) : p.FullyPatched (p.edited content) := by
  obtain ⟨src, -, hunp, hread⟩ := h.readText_edited
  exact ⟨src, hunp, hread⟩

/-- What is written is not what was there. -/
theorem Patchable.edited_ne (h : p.Patchable content) : p.edited content ≠ content := by
  obtain ⟨src, hread, hunp, hedited⟩ := h.readText_edited
  obtain ⟨e, edits, hedits⟩ := List.exists_cons_of_ne_nil p.nonempty
  intro heq
  have hsame : applyEdits p.edits src = src := by
    rw [heq, hread] at hedited
    exact (Option.some.inj hedited).symm
  -- every edit writes more than it removes, so the text has grown
  have hlt : src.length < (applyEdits p.edits src).length := by
    rw [hedits]
    exact length_lt_applyEdits (hedits ▸ p.grows) (hunp.2 e (by simp [hedits]))
  rw [hsame] at hlt
  exact lt_irrefl _ hlt

end Patcher

end Glm52.FilePatch
