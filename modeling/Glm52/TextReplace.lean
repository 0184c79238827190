import Mathlib.Data.List.Infix

/-! # Replacing the first occurrence

Edits of a sequence: an anchor is looked for and its first occurrence, if there is one,
is replaced.  Edits are applied one behind the other, so a later edit looks for its
anchor in what the earlier ones have written.  `Apart m b` says that `b` cannot overlap
an occurrence of `m`, wherever that stands; edits whose anchors and replacements are
apart do not see each other (`infix_replaceFirst_iff`), looking for an anchor when its turn
comes is looking for it beforehand (`Independent.forall_infix_iff`), and the edits together
are one pass over the text (`replaceEach_eq`). -/
namespace TextReplace

/-! ### Sequences that cannot overlap -/

section
variable {α : Type}

/-- One of the two begins with the other. -/
def Comparable (xs ys : List α) : Prop := xs <+: ys ∨ ys <+: xs

/-- No tail of `b` can lie against the beginning of `m`. -/
def Clear (m b : List α) : Prop := ∀ t, t <:+ b → t ≠ [] → ¬ Comparable t m

/-- No occurrence of one overlaps an occurrence of the other. -/
structure Apart (m b : List α) : Prop where
  before : Clear m b
  behind : Clear b m

theorem Apart.symm {m b : List α} (h : Apart m b) : Apart b m := ⟨h.behind, h.before⟩

theorem Clear.tail {b m : List α} {c : α} (h : Clear b (c :: m)) : Clear b m :=
  fun t ht hne => h t (ht.trans (List.suffix_cons c m)) hne

theorem not_prefix_of_clear {m b v : List α} (h : Clear b m) (hm : m ≠ []) : ¬ b <+: m ++ v := by
  intro hb
  have hcomp : Comparable m b := List.prefix_or_prefix_of_prefix (List.prefix_append m v) hb
  exact h m List.suffix_rfl hm hcomp

/-- What begins in front of `m` and cannot run into it ends in front of it. -/
theorem prefix_around {m b : List α} (h : Clear m b) (u v : List α) :
    b <+: u ++ m ++ v ↔ b <+: u := by
  constructor
  · intro hb
    have hfits : u <+: u ++ m ++ v := by simp
    rcases List.prefix_or_prefix_of_prefix hb hfits with hin | ⟨w, rfl⟩
    · exact hin
    · rcases eq_or_ne w [] with rfl | hne
      · simp
      · have hwm : w <+: m ++ v := by simpa using hb
        have hcomp : Comparable w m :=
          List.prefix_or_prefix_of_prefix hwm (List.prefix_append m v)
        exact absurd hcomp (h w (List.suffix_append u w) hne)
  · intro hb
    exact hb.trans (by simp)

/-- An occurrence that begins inside `m` begins behind it. -/
theorem infix_of_infix_append {m b v : List α} (h : Clear b m) (hb : b <:+: m ++ v) :
    b <:+: v := by
  induction m with
  | nil => simpa using hb
  | cons c m ih =>
    rw [List.cons_append, List.infix_cons_iff] at hb
    rcases hb with hfront | htail
    · have hfits : Comparable (c :: m) b :=
        List.prefix_or_prefix_of_prefix (List.prefix_append (c :: m) v) hfront
      exact absurd hfits (h _ List.suffix_rfl (by simp))
    · exact ih (fun t ht hne => h t (ht.trans (List.suffix_cons c m)) hne) htail

/-- What is apart from `m` occurs around `m` on one of its two sides. -/
theorem infix_around {m b : List α} (h : Apart m b) (u v : List α) :
    b <:+: u ++ m ++ v ↔ b <:+: u ∨ b <:+: v := by
  constructor
  · intro hb
    induction u with
    | nil => exact Or.inr (infix_of_infix_append h.behind (by simpa using hb))
    | cons c u ih =>
      simp only [List.cons_append, List.infix_cons_iff] at hb
      rcases hb with hfront | htail
      · have hu : c :: u <+: c :: (u ++ m ++ v) := ⟨m ++ v, by simp⟩
        rcases List.prefix_or_prefix_of_prefix hfront hu with hin | ⟨w, hw⟩
        · exact Or.inl hin.isInfix
        · -- `b` goes on behind `u` with `w`, which lies against `m`
          have hwm : w <+: m ++ v := by
            rw [← hw] at hfront
            have : c :: u ++ w <+: c :: u ++ (m ++ v) := by simpa using hfront
            exact (List.prefix_append_right_inj _).mp this
          rcases eq_or_ne w [] with rfl | hne
          · rw [List.append_nil] at hw
            exact Or.inl (hw ▸ List.infix_rfl)
          · have hfits : Comparable w m :=
              List.prefix_or_prefix_of_prefix hwm (List.prefix_append m v)
            exact absurd hfits (h.before w ⟨c :: u, hw⟩ hne)
      · rcases ih htail with hin | hin
        · exact Or.inl (hin.trans (List.suffix_cons c u).isInfix)
        · exact Or.inr hin
  · rintro (hb | hb)
    · exact hb.trans ⟨[], m ++ v, by simp⟩
    · exact hb.trans ⟨u ++ m, [], by simp⟩

end

/-! ### Looking for a sequence and replacing it -/

section
variable {α : Type} [DecidableEq α]

/-- Whether the sequence occurs in the text. -/
def occurs (pat : List α) : List α → Bool
  | [] => pat.isEmpty
  | c :: text => pat.isPrefixOf (c :: text) || occurs pat text

@[simp] theorem occurs_iff {pat text : List α} : occurs pat text = true ↔ pat <:+: text := by
  induction text with
  | nil => simp [occurs]
  | cons c text ih => simp [occurs, ih, List.infix_cons_iff]

@[simp] theorem occurs_eq_false_iff {pat text : List α} :
    occurs pat text = false ↔ ¬ pat <:+: text := by
  rw [← occurs_iff, Bool.not_eq_true]

/-- The text with the first occurrence of `pat` replaced. -/
def replaceFirst (pat new : List α) : List α → List α
  | [] => if pat.isEmpty then new else []
  | c :: text =>
    if pat.isPrefixOf (c :: text) then new ++ (c :: text).drop pat.length
    else c :: replaceFirst pat new text

/-- Without an occurrence nothing changes. -/
theorem replaceFirst_of_not_occurs {pat new text : List α} (h : ¬ pat <:+: text) :
    replaceFirst pat new text = text := by
  induction text with
  | nil => simpa [replaceFirst] using fun hnil : pat = [] => absurd hnil (by simpa using h)
  | cons c text ih =>
    rw [List.infix_cons_iff, not_or] at h
    simp only [replaceFirst, List.isPrefixOf_iff_prefix, if_neg h.1, ih h.2]

/-- An occurrence is cut out, and the replacement stands in its place. -/
theorem exists_replaceFirst {pat text : List α} (h : pat <:+: text) :
    ∃ u v, text = u ++ pat ++ v ∧ ∀ new, replaceFirst pat new text = u ++ new ++ v := by
  induction text with
  | nil =>
    obtain rfl : pat = [] := by simpa using h
    exact ⟨[], [], rfl, fun new => by simp [replaceFirst]⟩
  | cons c text ih =>
    -- the text begins with an occurrence, or the first one is further on
    by_cases hp : pat <+: c :: text
    · refine ⟨[], (c :: text).drop pat.length, ?_, fun new => ?_⟩
      · simpa using (List.prefix_iff_eq_append.mp hp).symm
      · simp [replaceFirst, hp]
    · have htail : pat <:+: text := (List.infix_cons_iff.mp h).resolve_left hp
      obtain ⟨u, v, htext, hnew⟩ := ih htail
      refine ⟨c :: u, v, by simp [htext], fun new => ?_⟩
      simp only [replaceFirst, List.isPrefixOf_iff_prefix, if_neg hp, hnew, List.cons_append]

theorem length_replaceFirst {pat text : List α} (new : List α) (h : pat <:+: text) :
    (replaceFirst pat new text).length + pat.length = text.length + new.length := by
  obtain ⟨u, v, htext, hnew⟩ := exists_replaceFirst h
  rw [hnew, htext]
  simp only [List.length_append]
  omega

theorem mem_replaceFirst {pat new text : List α} {c : α} (h : c ∈ replaceFirst pat new text) :
    c ∈ text ∨ c ∈ new := by
  by_cases hocc : pat <:+: text
  · obtain ⟨u, v, htext, hnew⟩ := exists_replaceFirst hocc
    rw [hnew] at h
    rw [htext]
    simp only [List.mem_append] at h ⊢
    tauto
  · rw [replaceFirst_of_not_occurs hocc] at h
    exact Or.inl h

/-- `Comparable`, computed. -/
def comparable : List α → List α → Bool
  | x :: xs, y :: ys => decide (x = y) && comparable xs ys
  | _, _ => true

theorem comparable_iff {xs ys : List α} : comparable xs ys = true ↔ Comparable xs ys := by
  induction xs generalizing ys with
  | nil => simp [comparable, Comparable]
  | cons x xs ih =>
    cases ys with
    | nil => simp [comparable, Comparable]
    | cons y ys =>
      simp only [comparable, Bool.and_eq_true, decide_eq_true_eq, ih, Comparable,
        List.cons_prefix_cons]
      constructor
      · rintro ⟨rfl, h⟩
        simpa using h
      · rintro (⟨rfl, h⟩ | ⟨rfl, h⟩)
        · exact ⟨rfl, Or.inl h⟩
        · exact ⟨rfl, Or.inr h⟩

/-- `Clear`, computed. -/
def clear (m : List α) : List α → Bool
  | [] => true
  | c :: b => !comparable (c :: b) m && clear m b

theorem clear_iff {m b : List α} : clear m b = true ↔ Clear m b := by
  induction b with
  | nil => simp [clear, Clear]
  | cons c b ih =>
    simp only [clear, Bool.and_eq_true, Bool.not_eq_true', ← Bool.not_eq_true, comparable_iff, ih]
    constructor
    · rintro ⟨hhead, htail⟩ t ht hne
      rcases List.suffix_cons_iff.mp ht with rfl | ht
      · exact hhead
      · exact htail t ht hne
    · intro h
      exact ⟨h _ List.suffix_rfl (by simp),
        fun t ht hne => h t (ht.trans (List.suffix_cons c b)) hne⟩

/-- `Apart`, computed. -/
def apart (m b : List α) : Bool := clear m b && clear b m

theorem apart_iff {m b : List α} : apart m b = true ↔ Apart m b := by
  rw [apart, Bool.and_eq_true, clear_iff, clear_iff]
  exact ⟨fun h => ⟨h.1, h.2⟩, fun h => ⟨h.before, h.behind⟩⟩

/-- A replacement neither makes nor destroys an occurrence of what is apart from the
replaced sequence and from the one written for it. -/
theorem infix_replaceFirst_iff {pat new b : List α} (hold : Apart pat b) (hnew : Apart new b)
    (text : List α) : b <:+: replaceFirst pat new text ↔ b <:+: text := by
  by_cases hocc : pat <:+: text
  · obtain ⟨u, v, htext, hrepl⟩ := exists_replaceFirst hocc
    rw [hrepl, htext, infix_around hnew, infix_around hold]
  · rw [replaceFirst_of_not_occurs hocc]

end

/-! ### Edits -/

/-- The first `anchor` becomes `repl`. -/
structure Edit (α : Type) where
  anchor : List α
  repl : List α

section
variable {α : Type} [DecidableEq α]

/-- The edits, one behind the other. -/
def applyEdits (edits : List (Edit α)) (text : List α) : List α :=
  edits.foldl (fun text e => replaceFirst e.anchor e.repl text) text

@[simp] theorem applyEdits_nil (text : List α) : applyEdits [] text = text := rfl

@[simp] theorem applyEdits_cons (e : Edit α) (edits : List (Edit α)) (text : List α) :
    applyEdits (e :: edits) text = applyEdits edits (replaceFirst e.anchor e.repl text) := rfl

/-- The later edit's anchor is apart from what the earlier one removes and writes. -/
structure Edit.Before (e e' : Edit α) : Prop where
  anchor : Apart e.anchor e'.anchor
  repl : Apart e.repl e'.anchor

/-- `Edit.Before`, computed. -/
def Edit.before (e e' : Edit α) : Bool := apart e.anchor e'.anchor && apart e.repl e'.anchor

theorem Edit.before_iff {e e' : Edit α} : e.before e' = true ↔ e.Before e' := by
  rw [Edit.before, Bool.and_eq_true, apart_iff, apart_iff]
  exact ⟨fun h => ⟨h.1, h.2⟩, fun h => ⟨h.anchor, h.repl⟩⟩

/-- No edit touches the anchor of a later one. -/
def Independent (edits : List (Edit α)) : Prop := edits.Pairwise Edit.Before

/-- `Independent`, computed. -/
def independent : List (Edit α) → Bool
  | [] => true
  | e :: edits => edits.all e.before && independent edits

theorem independent_iff {edits : List (Edit α)} :
    independent edits = true ↔ Independent edits := by
  induction edits with
  | nil => simp [independent, Independent]
  | cons e edits ih =>
    rw [independent, Bool.and_eq_true, ih, List.all_eq_true]
    simp only [Edit.before_iff, Independent, List.pairwise_cons]

/-- Behind the first edit the later anchors are where they were. -/
theorem Independent.forall_infix_iff {e : Edit α} {edits : List (Edit α)}
    (h : Independent (e :: edits)) (text : List α) :
    (∀ e' ∈ edits, e'.anchor <:+: replaceFirst e.anchor e.repl text) ↔
      ∀ e' ∈ edits, e'.anchor <:+: text := by
  have hbefore : ∀ e' ∈ edits, e.Before e' := (List.pairwise_cons.mp h).1
  exact forall₂_congr fun e' he' =>
    infix_replaceFirst_iff (hbefore e' he').anchor (hbefore e' he').repl text

/-- Characters of the edited text come from the text or from a replacement. -/
theorem mem_applyEdits {edits : List (Edit α)} {text : List α} {c : α}
    (h : c ∈ applyEdits edits text) : c ∈ text ∨ ∃ e ∈ edits, c ∈ e.repl := by
  induction edits generalizing text with
  | nil => exact Or.inl h
  | cons e edits ih =>
    rcases ih h with hc | ⟨e', he', hc⟩
    · rcases mem_replaceFirst hc with hc | hc
      · exact Or.inl hc
      · exact Or.inr ⟨e, by simp, hc⟩
    · exact Or.inr ⟨e', by simp [he'], hc⟩

/-- Edits that write more than they remove do not shorten the text. -/
theorem length_le_applyEdits {edits : List (Edit α)}
    (hgrow : ∀ e ∈ edits, e.anchor.length < e.repl.length) (text : List α) :
    text.length ≤ (applyEdits edits text).length := by
  induction edits generalizing text with
  | nil => simp
  | cons e edits ih =>
    have hrest := ih (fun e' he' => hgrow e' (by simp [he'])) (replaceFirst e.anchor e.repl text)
    refine le_trans ?_ hrest
    by_cases hocc : e.anchor <:+: text
    · have := length_replaceFirst e.repl hocc
      have := hgrow e (by simp)
      omega
    · rw [replaceFirst_of_not_occurs hocc]

/-- They lengthen a text that has the first anchor. -/
theorem length_lt_applyEdits {e : Edit α} {edits : List (Edit α)}
    (hgrow : ∀ e' ∈ e :: edits, e'.anchor.length < e'.repl.length) {text : List α}
    (hocc : e.anchor <:+: text) :
    text.length < (applyEdits (e :: edits) text).length := by
  have hrest := length_le_applyEdits (fun e' he' => hgrow e' (List.mem_cons_of_mem e he'))
    (replaceFirst e.anchor e.repl text)
  have := length_replaceFirst e.repl hocc
  have := hgrow e (by simp)
  rw [applyEdits_cons]
  omega

end

/-! ### Occurrences -/

section
variable {α : Type} [DecidableEq α]

/-- How often the sequence occurs in the text. -/
def occurrences (pat : List α) : List α → ℕ
  | [] => if pat.isEmpty then 1 else 0
  | c :: text => (if pat.isPrefixOf (c :: text) then 1 else 0) + occurrences pat text

/-- What is apart from `m` occurs around `m` as often as on its two sides. -/
theorem occurrences_around {m b : List α} (h : Apart m b) (hb : b ≠ []) (u v : List α) :
    occurrences b (u ++ m ++ v) = occurrences b u + occurrences b v := by
  have hempty : b.isEmpty = false := by simpa using hb
  induction u with
  | nil =>
    have hclear := h.behind
    clear h
    induction m with
    | nil => simp [occurrences, hempty]
    | cons c m ih =>
      have hno : ¬ b <+: c :: (m ++ v) := not_prefix_of_clear hclear (by simp)
      simp only [List.nil_append] at ih
      simp only [List.nil_append, List.cons_append, occurrences, List.isPrefixOf_iff_prefix,
        if_neg hno, ih hclear.tail]
      simp [hempty]
  | cons c u ih =>
    have hfront := prefix_around h.before (c :: u) v
    rw [List.cons_append, List.cons_append] at hfront
    simp only [List.cons_append, occurrences, List.isPrefixOf_iff_prefix, hfront, ih]
    omega

/-- **A replacement leaves the occurrences** of what is apart from it as they are: it
destroys none, makes none and doubles none. -/
theorem occurrences_replaceFirst {pat new b : List α} (hold : Apart pat b) (hnew : Apart new b)
    (hb : b ≠ []) (text : List α) :
    occurrences b (replaceFirst pat new text) = occurrences b text := by
  by_cases hocc : pat <:+: text
  · obtain ⟨u, v, htext, hrepl⟩ := exists_replaceFirst hocc
    rw [hrepl, htext, occurrences_around hnew hb, occurrences_around hold hb]
  · rw [replaceFirst_of_not_occurs hocc]

/-- A replacement makes and destroys no beginning either. -/
theorem prefix_replaceFirst_iff {pat new b : List α} (hold : Apart pat b) (hnew : Apart new b)
    (text : List α) : b <+: replaceFirst pat new text ↔ b <+: text := by
  by_cases hocc : pat <:+: text
  · obtain ⟨u, v, htext, hrepl⟩ := exists_replaceFirst hocc
    rw [hrepl, htext, prefix_around hnew.before, prefix_around hold.before]
  · rw [replaceFirst_of_not_occurs hocc]

/-- What is apart from the replaced sequence stays. -/
theorem replaceFirst_keeps {pat new b text : List α} (h : Apart pat b)
    (hb : b <:+: text) : b <:+: replaceFirst pat new text := by
  by_cases hocc : pat <:+: text
  · obtain ⟨u, v, htext, hrepl⟩ := exists_replaceFirst hocc
    rw [htext] at hb
    rw [hrepl]
    rcases (infix_around h u v).mp hb with hu | hv
    · exact hu.trans ⟨[], new ++ v, by simp⟩
    · exact hv.trans ⟨u ++ new, [], by simp⟩
  · rwa [replaceFirst_of_not_occurs hocc]

/-- What the edits write is in the edited text. -/
theorem repl_infix_applyEdits {edits : List (Edit α)} (hind : Independent edits) {text : List α}
    (hall : ∀ e ∈ edits, e.anchor <:+: text) : ∀ e ∈ edits, e.repl <:+: applyEdits edits text := by
  induction edits generalizing text with
  | nil => simp
  | cons e edits ih =>
    have hbefore : ∀ e' ∈ edits, e.Before e' := (List.pairwise_cons.mp hind).1
    rw [List.forall_mem_cons] at hall ⊢
    constructor
    · obtain ⟨u, v, -, hrepl⟩ := exists_replaceFirst hall.1
      have hhere : e.repl <:+: replaceFirst e.anchor e.repl text := ⟨u, v, (hrepl e.repl).symm⟩
      rw [applyEdits_cons]
      generalize replaceFirst e.anchor e.repl text = text' at hhere
      clear ih hind hall
      induction edits generalizing text' with
      | nil => exact hhere
      | cons e' edits ih =>
        rw [List.forall_mem_cons] at hbefore
        exact ih hbefore.2 _ (replaceFirst_keeps hbefore.1.repl.symm hhere)
    · exact ih (List.pairwise_cons.mp hind).2 ((hind.forall_infix_iff text).mpr hall.2)

end

/-! ### One pass over the text -/

section
variable {α : Type} [DecidableEq α]

/-- The edits made in one pass over the text: an anchor is replaced where it is first met,
and its edit is not used again.  With the text come the edits that found no anchor; `skip`
counts what is left of an anchor that has been replaced. -/
def replaceEach : List (Edit α) → ℕ → List α → List α × List (Edit α)
  | edits, _, [] => ([], edits)
  | edits, skip + 1, _ :: text => replaceEach edits skip text
  | edits, 0, c :: text =>
    match edits.find? fun e => e.anchor.isPrefixOf (c :: text) with
    | some e =>
      let others := edits.eraseP fun e => e.anchor.isPrefixOf (c :: text)
      let rest := replaceEach others (e.anchor.length - 1) text
      (e.repl ++ rest.1, rest.2)
    | none =>
      let rest := replaceEach edits 0 text
      (c :: rest.1, rest.2)

theorem replaceEach_skip (edits : List (Edit α)) (skip : ℕ) (text : List α) :
    replaceEach edits skip text = replaceEach edits 0 (text.drop skip) := by
  induction text generalizing skip with
  | nil => simp [replaceEach]
  | cons c text ih =>
    cases skip with
    | zero => rfl
    | succ skip => rw [replaceEach, List.drop_succ_cons, ih]

theorem applyEdits_append (edits edits' : List (Edit α)) (text : List α) :
    applyEdits (edits ++ edits') text = applyEdits edits' (applyEdits edits text) := by
  simp [applyEdits]

/-- Behind a stretch that no anchor can touch the edits work as without it. -/
theorem applyEdits_clear {edits : List (Edit α)} {m : List α}
    (h : ∀ e ∈ edits, Clear e.anchor m) (v : List α) :
    applyEdits edits (m ++ v) = m ++ applyEdits edits v := by
  induction edits generalizing v with
  | nil => rfl
  | cons e edits ih =>
    rw [List.forall_mem_cons] at h
    have hskip : replaceFirst e.anchor e.repl (m ++ v) = m ++ replaceFirst e.anchor e.repl v := by
      have hclear := h.1
      clear ih h
      induction m with
      | nil => rfl
      | cons c m ih =>
        have hno : ¬ e.anchor <+: c :: (m ++ v) := not_prefix_of_clear hclear (by simp)
        simp only [List.cons_append, replaceFirst, List.isPrefixOf_iff_prefix, if_neg hno,
          ih hclear.tail]
    rw [applyEdits_cons, applyEdits_cons, hskip, ih h.2]

/-- A text that begins with no anchor keeps its first character. -/
theorem applyEdits_cons_text {edits : List (Edit α)} (hind : Independent edits) {c : α}
    {text : List α} (hno : ∀ e ∈ edits, ¬ e.anchor <+: c :: text) :
    applyEdits edits (c :: text) = c :: applyEdits edits text := by
  induction edits generalizing text with
  | nil => rfl
  | cons e edits ih =>
    have hbefore : ∀ e' ∈ edits, e.Before e' := (List.pairwise_cons.mp hind).1
    rw [List.forall_mem_cons] at hno
    have hstep : replaceFirst e.anchor e.repl (c :: text) =
        c :: replaceFirst e.anchor e.repl text := by
      simp only [replaceFirst, List.isPrefixOf_iff_prefix, if_neg hno.1]
    rw [applyEdits_cons, applyEdits_cons, hstep]
    refine ih (List.pairwise_cons.mp hind).2 fun e' he' hfront => hno.2 e' he' ?_
    rw [← hstep] at hfront
    exact (prefix_replaceFirst_iff (hbefore e' he').anchor (hbefore e' he').repl _).mp hfront

/-- A text that begins with the anchor of one edit: that edit writes its replacement there,
and the others work behind it. -/
theorem applyEdits_anchor {e : Edit α} {before behind : List (Edit α)}
    (hind : Independent (before ++ e :: behind)) (v : List α) :
    applyEdits (before ++ e :: behind) (e.anchor ++ v) =
      e.repl ++ applyEdits (before ++ behind) v := by
  obtain ⟨-, htail, hcross⟩ := List.pairwise_append.mp hind
  have hlater : ∀ e' ∈ behind, e.Before e' := (List.pairwise_cons.mp htail).1
  have hkeep : ∀ e' ∈ before, Clear e'.anchor e.anchor :=
    fun e' he' => (hcross e' he' e List.mem_cons_self).anchor.before
  have hwrite : ∀ w, replaceFirst e.anchor e.repl (e.anchor ++ w) = e.repl ++ w := by
    intro w
    cases hw : e.anchor ++ w with
    | nil =>
      obtain ⟨hanchor, rfl⟩ := List.append_eq_nil_iff.mp hw
      simp [replaceFirst, hanchor]
    | cons c text =>
      have hfront : e.anchor <+: c :: text := hw ▸ List.prefix_append _ _
      rw [replaceFirst, if_pos (List.isPrefixOf_iff_prefix.mpr hfront), ← hw, List.drop_left]
  rw [applyEdits_append, applyEdits_cons, applyEdits_clear hkeep, hwrite,
    applyEdits_clear fun e' he' => (hlater e' he').repl.behind, applyEdits_append]

/-- The other edits find their anchors behind it, if at all. -/
theorem filter_not_occurs_anchor {e : Edit α} {before behind : List (Edit α)}
    (hind : Independent (before ++ e :: behind)) (v : List α) :
    ((before ++ e :: behind).filter fun e' => !occurs e'.anchor (e.anchor ++ v)) =
      (before ++ behind).filter fun e' => !occurs e'.anchor v := by
  obtain ⟨-, htail, hcross⟩ := List.pairwise_append.mp hind
  have hlater : ∀ e' ∈ behind, e.Before e' := (List.pairwise_cons.mp htail).1
  have hclear : ∀ e' ∈ before ++ behind, Clear e'.anchor e.anchor := by
    intro e' he'
    rcases List.mem_append.mp he' with he' | he'
    · exact (hcross e' he' e List.mem_cons_self).anchor.before
    · exact (hlater e' he').anchor.behind
  have hsame : ∀ e' ∈ before ++ behind,
      (!occurs e'.anchor (e.anchor ++ v)) = !occurs e'.anchor v := by
    intro e' he'
    rw [Bool.not_inj_iff, Bool.eq_iff_iff, occurs_iff, occurs_iff]
    exact ⟨infix_of_infix_append (hclear e' he'), fun h => h.trans (List.suffix_append _ _).isInfix⟩
  have hhere : occurs e.anchor (e.anchor ++ v) = true :=
    occurs_iff.mpr (List.prefix_append _ _).isInfix
  calc ((before ++ e :: behind).filter fun e' => !occurs e'.anchor (e.anchor ++ v))
      = (before ++ behind).filter fun e' => !occurs e'.anchor (e.anchor ++ v) := by
        simp [List.filter_append, hhere]
    _ = _ := List.filter_congr hsame

/-- Without a text there is nothing to edit. -/
theorem applyEdits_nil_text {edits : List (Edit α)} (hne : ∀ e ∈ edits, e.anchor ≠ []) :
    applyEdits edits ([] : List α) = [] := by
  induction edits with
  | nil => rfl
  | cons e edits ih =>
    rw [List.forall_mem_cons] at hne
    have hnil : replaceFirst e.anchor e.repl [] = [] := by simp [replaceFirst, hne.1]
    rw [applyEdits_cons, hnil, ih hne.2]

/-- **One pass does what the edits do one behind the other**, and leaves over the edits
whose anchors are not in the text. -/
theorem replaceEach_eq {edits : List (Edit α)} (hind : Independent edits)
    (hne : ∀ e ∈ edits, e.anchor ≠ []) (text : List α) :
    replaceEach edits 0 text =
      (applyEdits edits text, edits.filter fun e => !occurs e.anchor text) := by
  induction hlen : text.length using Nat.strong_induction_on generalizing edits text with
  | _ n ih =>
    cases text with
    | nil =>
      have hall : edits.filter (fun e => !occurs e.anchor []) = edits :=
        List.filter_eq_self.mpr fun e he => by simp [occurs, hne e he]
      rw [applyEdits_nil_text hne, hall, replaceEach]
    | cons c text =>
      rw [replaceEach]
      cases hfind : edits.find? fun e => e.anchor.isPrefixOf (c :: text) with
      | none =>
        have hno : ∀ e ∈ edits, ¬ e.anchor <+: c :: text := by
          simpa using List.find?_eq_none.mp hfind
        have hrest := ih text.length (by simp [← hlen]) hind hne text rfl
        have hfilter : edits.filter (fun e => !occurs e.anchor (c :: text)) =
            edits.filter fun e => !occurs e.anchor text :=
          List.filter_congr fun e he => by
            have hnot : e.anchor.isPrefixOf (c :: text) = false := by
              rw [← Bool.not_eq_true, List.isPrefixOf_iff_prefix]
              exact hno e he
            rw [occurs, hnot, Bool.false_or]
        simp only [hrest, applyEdits_cons_text hind hno, hfilter]
      | some e =>
        obtain ⟨hhead, before, behind, rfl, hbefore⟩ := List.find?_eq_some_iff_append.mp hfind
        have hothers : (before ++ e :: behind).eraseP (fun e => e.anchor.isPrefixOf (c :: text)) =
            before ++ behind := by
          have hpass : ∀ e' ∈ before, ¬ e'.anchor.isPrefixOf (c :: text) = true :=
            fun e' he' h => by simpa [h] using hbefore e' he'
          rw [List.eraseP_append_right _ hpass, List.eraseP_cons, hhead, cond_true]
        obtain ⟨v, hv⟩ := List.isPrefixOf_iff_prefix.mp hhead
        have hanchor : 0 < e.anchor.length :=
          List.length_pos_iff.mpr (hne e (by simp))
        have hskip : text.drop (e.anchor.length - 1) = v := by
          have hdrop : (c :: text).drop e.anchor.length = v := by rw [← hv, List.drop_left]
          rwa [← Nat.succ_pred_eq_of_pos hanchor, List.drop_succ_cons] at hdrop
        have hsub : (before ++ behind).Sublist (before ++ e :: behind) :=
          (List.sublist_cons_self e behind).append_left before
        have hlength := congrArg List.length hv
        simp only [List.length_append] at hlength
        have hrest := ih v.length (by omega) (hind.sublist hsub)
          (fun e' he' => hne e' (hsub.subset he')) v rfl
        have hfilter := filter_not_occurs_anchor hind v
        rw [hv] at hfilter
        simp only [hothers, replaceEach_skip _ (e.anchor.length - 1), hskip, hrest, hfilter]
        rw [← hv, applyEdits_anchor hind]

end

end TextReplace
