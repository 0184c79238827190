import Mathlib.Data.List.TakeWhile
import Mathlib.Data.List.Infix

/-! # The names of a model's tensors

A tensor of an expert is called `model.layers.L.mlp.experts.E.suffix`, the router's
weight and bias of a layer `model.layers.L.mlp.gate.weight` and
`model.layers.L.mlp.gate.e_score_correction_bias`.  The regular expressions are matched
by hand: each has one way to match, since a run of digits ends where a dot begins.

A name that is built is matched with the numbers and the suffix it was built from
(`expertMatch_expertName`), and a name with canonical numbers on one line is the name
built from its groups (`ExpertGroups.eq_expertName`). -/
namespace Glm52.TensorNames

/-- The characters that `\d` matches, with their values for `int`. -/
structure Decimals where
  value : Char → Option ℕ
  digit : ∀ d < 10, value (Nat.digitChar d) = some d
  dot : value '.' = none

/-- The digits of ASCII. -/
def Decimals.ascii : Decimals where
  value c := if c.isDigit then some (c.toNat - 48) else none
  digit := by decide
  dot := rfl

/-! ### Matching -/

section
variable (dec : Decimals)

/-- `\d`. -/
def Decimals.matches (c : Char) : Bool := (dec.value c).isSome

/-- `(\d+)`, and what comes behind it. -/
def Decimals.digits (cs : List Char) : Option (List Char × List Char) :=
  if (cs.takeWhile dec.matches).isEmpty then none
  else some (cs.takeWhile dec.matches, cs.dropWhile dec.matches)

/-- `int(digits)`. -/
def Decimals.int (ds : List Char) : ℕ :=
  ds.foldl (fun n c => 10 * n + (dec.value c).getD 0) 0

/-- What comes behind a literal. -/
def behind (lit : String) (cs : List Char) : Option (List Char) :=
  if lit.toList <+: cs then some (cs.drop lit.toList.length) else none

/-- `$`: the end, or a newline at the end. -/
def AtEnd (cs : List Char) : Prop := cs = [] ∨ cs = ['\n']

instance (cs : List Char) : Decidable (AtEnd cs) := inferInstanceAs (Decidable (_ ∨ _))

/-- `(.+)$`. -/
def lastGroup (cs : List Char) : Option (List Char) :=
  if cs.takeWhile (· ≠ '\n') ≠ [] ∧ AtEnd (cs.dropWhile (· ≠ '\n')) then
    some (cs.takeWhile (· ≠ '\n'))
  else none

/-- The groups of `EXPERT_RE`. -/
structure ExpertGroups where
  layer : List Char
  expert : List Char
  suffix : List Char
deriving DecidableEq

/-- `EXPERT_RE.match(name)`. -/
def expertMatch (name : String) : Option ExpertGroups := do
  let cs ← behind "model.layers." name.toList
  let (layer, cs) ← dec.digits cs
  let cs ← behind ".mlp.experts." cs
  let (expert, cs) ← dec.digits cs
  let cs ← behind "." cs
  let suffix ← lastGroup cs
  some ⟨layer, expert, suffix⟩

/-- A router's expression: the layer's digits, the literal, the end. -/
def routerMatch (lit : String) (name : String) : Option (List Char) := do
  let cs ← behind "model.layers." name.toList
  let (layer, cs) ← dec.digits cs
  let cs ← behind lit cs
  if AtEnd cs then some layer else none

/-- `GATE_RE.match(name)`. -/
def gateMatch : String → Option (List Char) := routerMatch dec ".mlp.gate.weight"

/-- `BIAS_RE.match(name)`. -/
def biasMatch : String → Option (List Char) :=
  routerMatch dec ".mlp.gate.e_score_correction_bias"

/-- `GATE_RE.match(name) or BIAS_RE.match(name)`: the layer's digits. -/
def router (name : String) : Option (List Char) := (gateMatch dec name).or (biasMatch dec name)

/-- The layer's digits at the front of a name, up to a dot. -/
def layerMatch (name : String) : Option (List Char) := do
  let cs ← behind "model.layers." name.toList
  let (layer, cs) ← dec.digits cs
  let _ ← behind "." cs
  some layer

end

/-- The name of a tensor of expert `e` of layer `L`. -/
def expertName (L e : ℕ) (suffix : List Char) : String :=
  "model.layers." ++ toString L ++ ".mlp.experts." ++ toString e ++ "." ++ String.ofList suffix

/-! ### Numbers -/

section
variable (dec : Decimals)

theorem int_append (ds : List Char) (c : Char) :
    dec.int (ds ++ [c]) = 10 * dec.int ds + (dec.value c).getD 0 := by
  rw [Decimals.int, List.foldl_append]
  rfl

/-- A number is read back from its digits. -/
theorem int_toDigits (n : ℕ) : dec.int (Nat.toDigits 10 n) = n := by
  induction n using Nat.strongRecOn with
  | _ n ih =>
    by_cases hn : n < 10
    · rw [Nat.toDigits_of_lt_base hn, ← List.nil_append [n.digitChar], int_append, dec.digit n hn]
      exact Nat.zero_add n
    · have hmod : n % 10 < 10 := Nat.mod_lt n (by decide)
      rw [Nat.toDigits_of_base_le (by decide) (Nat.not_lt.mp hn), int_append,
        ih (n / 10) (by omega), dec.digit _ hmod, Option.getD_some]
      omega

theorem matches_of_mem_toDigits {n : ℕ} {c : Char} (h : c ∈ Nat.toDigits 10 n) :
    dec.matches c = true := by
  induction n using Nat.strongRecOn with
  | _ n ih =>
    by_cases hn : n < 10
    · rw [Nat.toDigits_of_lt_base hn, List.mem_singleton] at h
      rw [h, Decimals.matches, dec.digit n hn]
      rfl
    · have hmod : n % 10 < 10 := Nat.mod_lt n (by decide)
      rw [Nat.toDigits_of_base_le (by decide) (Nat.not_lt.mp hn), List.mem_append,
        List.mem_singleton] at h
      rcases h with h | rfl
      · exact ih (n / 10) (by omega) h
      · rw [Decimals.matches, dec.digit _ hmod]
        rfl

/-- A run of digits ends at a dot. -/
theorem digits_append {ds : List Char} (hds : ∀ c ∈ ds, dec.matches c = true) (hne : ds ≠ [])
    (rest : List Char) : dec.digits (ds ++ '.' :: rest) = some (ds, '.' :: rest) := by
  have hdot : dec.matches '.' = false := by rw [Decimals.matches, dec.dot]; rfl
  have htake : (ds ++ '.' :: rest).takeWhile dec.matches = ds := by
    rw [List.takeWhile_append_of_pos hds, List.takeWhile_cons_of_neg (by simp [hdot]),
      List.append_nil]
  have hdrop : (ds ++ '.' :: rest).dropWhile dec.matches = '.' :: rest := by
    rw [List.dropWhile_append_of_pos hds, List.dropWhile_cons_of_neg (by simp [hdot])]
  rw [Decimals.digits, htake, hdrop, if_neg (by simpa using hne)]

theorem digits_toDigits (n : ℕ) (rest : List Char) :
    dec.digits (Nat.toDigits 10 n ++ '.' :: rest) = some (Nat.toDigits 10 n, '.' :: rest) :=
  digits_append dec (fun _ h => matches_of_mem_toDigits dec h) Nat.toDigits_ne_nil rest

theorem digits_eq_some {cs ds rest : List Char} (h : dec.digits cs = some (ds, rest)) :
    cs = ds ++ rest := by
  rw [Decimals.digits] at h
  split at h
  · cases h
  · obtain ⟨rfl, rfl⟩ := Prod.mk.inj (Option.some.inj h)
    exact List.takeWhile_append_dropWhile.symm

end

/-! ### Literals and groups -/

theorem behind_append (lit : String) (rest : List Char) :
    behind lit (lit.toList ++ rest) = some rest := by
  rw [behind, if_pos (List.prefix_append _ _), List.drop_left]

theorem behind_eq_some {lit : String} {cs rest : List Char} (h : behind lit cs = some rest) :
    cs = lit.toList ++ rest := by
  rw [behind] at h
  split at h
  · next hfront =>
    obtain rfl := Option.some.inj h
    exact List.prefix_iff_eq_append.mp hfront |>.symm
  · cases h

theorem lastGroup_eq_self {suffix : List Char} (hne : suffix ≠ []) (hline : '\n' ∉ suffix) :
    lastGroup suffix = some suffix := by
  have hall : ∀ c ∈ suffix, decide (c ≠ '\n') = true := by
    intro c hc
    rw [decide_eq_true_eq]
    rintro rfl
    exact hline hc
  have htake : suffix.takeWhile (· ≠ '\n') = suffix := List.takeWhile_eq_self_iff.mpr hall
  have hdrop : suffix.dropWhile (· ≠ '\n') = [] := List.dropWhile_eq_nil_iff.mpr hall
  rw [lastGroup, htake, hdrop, if_pos ⟨hne, Or.inl rfl⟩]

theorem lastGroup_eq_some {cs suffix : List Char} (h : lastGroup cs = some suffix) :
    suffix ≠ [] ∧ '\n' ∉ suffix ∧ (cs = suffix ∨ cs = suffix ++ ['\n']) := by
  rw [lastGroup] at h
  split at h
  · next hcond =>
    obtain ⟨hne, hend⟩ := hcond
    obtain rfl := Option.some.inj h
    have hsplit : cs.takeWhile (· ≠ '\n') ++ cs.dropWhile (· ≠ '\n') = cs :=
      List.takeWhile_append_dropWhile
    refine ⟨hne, fun hmem => ?_, ?_⟩
    · have hkept := List.mem_takeWhile_imp hmem
      simp at hkept
    · rcases hend with hend | hend
      · rw [hend, List.append_nil] at hsplit
        exact Or.inl hsplit.symm
      · rw [hend] at hsplit
        exact Or.inr hsplit.symm
  · cases h

/-! ### Names of experts' tensors -/

section
variable {dec : Decimals}

theorem toList_expertName (L e : ℕ) (suffix : List Char) :
    (expertName L e suffix).toList = "model.layers.".toList ++ (Nat.toDigits 10 L ++
      (".mlp.experts.".toList ++ (Nat.toDigits 10 e ++ (".".toList ++ suffix)))) := by
  show ("model.layers." ++ toString L ++ ".mlp.experts." ++ toString e ++ "." ++
    String.ofList suffix).toList = _
  simp only [String.toList_append, Nat.toString_eq_ofList_toDigits, String.toList_ofList,
    List.append_assoc]

/-- **A name is matched with what it was built from.** -/
theorem expertMatch_expertName (L e : ℕ) {suffix : List Char} (hne : suffix ≠ [])
    (hline : '\n' ∉ suffix) :
    expertMatch dec (expertName L e suffix) =
      some ⟨Nat.toDigits 10 L, Nat.toDigits 10 e, suffix⟩ := by
  have hexperts : ".mlp.experts.".toList = '.' :: "mlp.experts.".toList := rfl
  have hdot : ".".toList = ['.'] := rfl
  have hlayer := digits_toDigits dec L
    ("mlp.experts.".toList ++ (Nat.toDigits 10 e ++ (".".toList ++ suffix)))
  rw [← List.cons_append, ← hexperts] at hlayer
  have hexpert := digits_toDigits dec e suffix
  rw [← List.singleton_append, ← hdot] at hexpert
  simp only [expertMatch, toList_expertName, behind_append, hlayer, hexpert,
    lastGroup_eq_self hne hline, Option.bind_eq_bind, Option.bind_some]

/-- The numbers of the groups are written in their canonical form. -/
structure ExpertGroups.Canonical (dec : Decimals) (m : ExpertGroups) : Prop where
  layer : m.layer = Nat.toDigits 10 (dec.int m.layer)
  expert : m.expert = Nat.toDigits 10 (dec.int m.expert)

instance (m : ExpertGroups) : Decidable (m.Canonical dec) :=
  decidable_of_iff (m.layer = Nat.toDigits 10 (dec.int m.layer) ∧
      m.expert = Nat.toDigits 10 (dec.int m.expert))
    ⟨fun h => ⟨h.1, h.2⟩, fun h => ⟨h.layer, h.expert⟩⟩

/-- A name that is built has canonical numbers. -/
theorem canonical_toDigits (L e : ℕ) (suffix : List Char) :
    (ExpertGroups.mk (Nat.toDigits 10 L) (Nat.toDigits 10 e) suffix).Canonical dec where
  layer := by rw [int_toDigits]
  expert := by rw [int_toDigits]

/-- What a match says of a name. -/
theorem expertMatch_eq_some {name : String} {m : ExpertGroups}
    (h : expertMatch dec name = some m) :
    m.suffix ≠ [] ∧ '\n' ∉ m.suffix ∧ ∃ tail, AtEnd tail ∧
      name.toList = "model.layers.".toList ++ (m.layer ++ (".mlp.experts.".toList ++
        (m.expert ++ (".".toList ++ (m.suffix ++ tail))))) := by
  unfold expertMatch at h
  obtain ⟨cs₁, h₁, h⟩ := Option.bind_eq_some_iff.mp h
  obtain ⟨⟨layer, cs₂⟩, h₂, h⟩ := Option.bind_eq_some_iff.mp h
  obtain ⟨cs₃, h₃, h⟩ := Option.bind_eq_some_iff.mp h
  obtain ⟨⟨expert, cs₄⟩, h₄, h⟩ := Option.bind_eq_some_iff.mp h
  obtain ⟨cs₅, h₅, h⟩ := Option.bind_eq_some_iff.mp h
  obtain ⟨suffix, h₆, h⟩ := Option.bind_eq_some_iff.mp h
  obtain rfl := Option.some.inj h
  obtain ⟨hne, hline, hend⟩ := lastGroup_eq_some h₆
  have hname : name.toList = "model.layers.".toList ++ (layer ++ (".mlp.experts.".toList ++
      (expert ++ (".".toList ++ cs₅)))) := by
    rw [behind_eq_some h₁, digits_eq_some dec h₂, behind_eq_some h₃, digits_eq_some dec h₄,
      behind_eq_some h₅]
  refine ⟨hne, hline, ?_⟩
  rcases hend with rfl | rfl
  · exact ⟨[], Or.inl rfl, by rw [hname, List.append_nil]⟩
  · exact ⟨['\n'], Or.inr rfl, hname⟩

/-- **A name on one line with canonical numbers is built from its groups.** -/
theorem ExpertGroups.Canonical.eq_expertName {name : String} {m : ExpertGroups}
    (hcanon : m.Canonical dec) (hline : '\n' ∉ name.toList)
    (h : expertMatch dec name = some m) :
    name = expertName (dec.int m.layer) (dec.int m.expert) m.suffix := by
  obtain ⟨-, -, tail, hend, hname⟩ := expertMatch_eq_some h
  have htail : tail = [] := by
    rcases hend with rfl | rfl
    · rfl
    · refine absurd ?_ hline
      rw [hname]
      simp only [List.mem_append, List.mem_singleton, or_true]
  rw [← String.toList_inj, toList_expertName, ← hcanon.layer, ← hcanon.expert, hname, htail,
    List.append_nil]

/-- **Names determine layers, experts and suffixes.** -/
theorem expertName_inj {L L' e e' : ℕ} {suffix suffix' : List Char} (hne : suffix ≠ [])
    (hline : '\n' ∉ suffix) (hne' : suffix' ≠ []) (hline' : '\n' ∉ suffix')
    (h : expertName L e suffix = expertName L' e' suffix') :
    L = L' ∧ e = e' ∧ suffix = suffix' := by
  have hmatch : expertMatch .ascii (expertName L e suffix) = _ :=
    expertMatch_expertName L e hne hline
  rw [h, expertMatch_expertName L' e' hne' hline'] at hmatch
  obtain ⟨hL, he, hs⟩ := ExpertGroups.mk.inj (Option.some.inj hmatch)
  refine ⟨?_, ?_, hs.symm⟩
  · rw [← int_toDigits .ascii L, ← hL, int_toDigits]
  · rw [← int_toDigits .ascii e, ← he, int_toDigits]

/-! ### Names of routers' tensors -/

theorem routerMatch_eq_some {lit name : String} {layer : List Char}
    (h : routerMatch dec lit name = some layer) :
    ∃ cs rest, behind "model.layers." name.toList = some cs ∧
      dec.digits cs = some (layer, lit.toList ++ rest) := by
  unfold routerMatch at h
  obtain ⟨cs, h₁, h⟩ := Option.bind_eq_some_iff.mp h
  obtain ⟨⟨layer', cs₂⟩, h₂, h⟩ := Option.bind_eq_some_iff.mp h
  obtain ⟨rest, h₃, h⟩ := Option.bind_eq_some_iff.mp h
  obtain ⟨-, h⟩ := Option.ite_none_right_eq_some.mp h
  obtain rfl := Option.some.inj h
  exact ⟨cs, rest, h₁, by rw [h₂, behind_eq_some h₃]⟩

/-- Behind a router's layer comes one of the two literals. -/
theorem router_eq_some {name : String} {layer : List Char} (h : router dec name = some layer) :
    ∃ cs rest, behind "model.layers." name.toList = some cs ∧
      dec.digits cs = some (layer, ".mlp.gate.".toList ++ rest) := by
  have hlits : ∀ lit : String, ".mlp.gate.".toList <+: lit.toList →
      routerMatch dec lit name = some layer → ∃ cs rest,
        behind "model.layers." name.toList = some cs ∧
          dec.digits cs = some (layer, ".mlp.gate.".toList ++ rest) := by
    rintro lit ⟨more, hmore⟩ hmatch
    obtain ⟨cs, rest, h₁, h₂⟩ := routerMatch_eq_some hmatch
    exact ⟨cs, more ++ rest, h₁, by rw [h₂, ← hmore, List.append_assoc]⟩
  rcases Option.or_eq_some_iff.mp h with h | ⟨-, h⟩
  · exact hlits _ (by simp) h
  · exact hlits _ (by simp) h

theorem layerMatch_of_router {name : String} {layer : List Char}
    (h : router dec name = some layer) : layerMatch dec name = some layer := by
  obtain ⟨cs, rest, h₁, h₂⟩ := router_eq_some h
  have hdot : behind "." (".mlp.gate.".toList ++ rest) =
      some ("mlp.gate.".toList ++ rest) :=
    behind_append "." ("mlp.gate.".toList ++ rest)
  simp only [layerMatch, h₁, h₂, hdot, Option.bind_eq_bind, Option.bind_some]

/-- A router's tensor is no expert's. -/
theorem expertMatch_of_router {name : String} {layer : List Char}
    (h : router dec name = some layer) : expertMatch dec name = none := by
  obtain ⟨cs, rest, h₁, h₂⟩ := router_eq_some h
  have hexperts : behind ".mlp.experts." (".mlp.gate.".toList ++ rest) = none := by
    rw [behind, if_neg]
    simp
  simp only [expertMatch, h₁, h₂, hexperts, Option.bind_eq_bind, Option.bind_some,
    Option.bind_none]

theorem not_router_of_expert {name : String} {m : ExpertGroups} {layer : List Char}
    (hm : expertMatch dec name = some m) (hr : router dec name = some layer) : False := by
  rw [expertMatch_of_router hr] at hm
  cases hm

end

end Glm52.TensorNames
