import Glm52.BiasKeepList
import Mathlib.Data.List.ReduceOption

/-! # The structural check of a written model

`validate` reads a directory on its own: the index, the configuration, and the headers
of the shards.  A shard must have its tensors one behind the other from the start of the
data to the end of the file.  Of the MoE layers only the first, the middle and the last
are looked at: the rows of the router's weight in its shard, the highest expert and the
number of the experts' tensors in the index.

`validate_eq_true` says what is accepted, and `validate_misses` what slips through. -/
namespace Glm52.ExpertPrune
open TensorNames

/-! ### The program -/

/-- Checks one behind the other, none of which stops the others; a check may raise. -/
def checkAll {α : Type} (check : α → Option Bool) : List α → Option Bool
  | [] => some true
  | a :: rest => do
    let ok ← check a
    let oks ← checkAll check rest
    some (ok && oks)

/-- The order of two lists `[begin, end]`. -/
def spanLe (a b : ℕ × ℕ) : Prop := a.1 < b.1 ∨ a.1 = b.1 ∧ a.2 ≤ b.2

instance (a b : ℕ × ℕ) : Decidable (spanLe a b) := inferInstanceAs (Decidable (_ ∨ _))

/-- `model.layers.L.mlp.gate.weight`. -/
def gateName (L : ℕ) : String := "model.layers." ++ toString L ++ ".mlp.gate.weight"

section
variable (dec : Decimals)

/-- The layer of an expert's tensor. -/
def layerOf (name : String) : Option ℕ := (expertMatch dec name).map fun m => dec.int m.layer

/-- `moe`: the layers that have experts, in order. -/
def moeLayers (names : List String) : List ℕ :=
  (names.filterMap (layerOf dec)).dedup.insertionSort (· ≤ ·)

/-- The expert of a tensor of layer `L`. -/
def expertIn (L : ℕ) (name : String) : Option ℕ :=
  match expertMatch dec name with
  | some m => if dec.int m.layer = L then some (dec.int m.expert) else none
  | none => none

/-- `[moe[0], moe[len(moe)//2], moe[-1]]`; without MoE layers it raises. -/
def spotLayers (moe : List ℕ) : Option (List ℕ) := do
  let first ← moe.head?
  let middle ← moe[moe.length / 2]?
  let last ← moe.getLast?
  some [first, middle, last]

end

section
variable {J : Type} (py : Python J)

/-- `sorted([hdr[n]["data_offsets"] for n in hdr if n!="__metadata__"])`. -/
def sortedOffsets (hdr : Header J) : Option (List (ℕ × ℕ)) := do
  let offs ← (hdr.entries.filter fun e => e.1 ≠ metadataKey).mapM fun e => e.2.dataOffsets
  some (offs.insertionSort spanLe)

/-- The check of a shard: that it is there, its offsets, and its size. -/
def validateShard (out : Directory J) (sh : String) : Option Bool :=
  match out.get? sh with
  | none => some false
  | some (.bytes file) => do
    let (hdr, ds) ← parseHeader py.codec file
    let offs ← sortedOffsets hdr
    -- `offs[0]` and `offs[-1]`, an IndexError without tensors
    let first ← offs.head?
    let last ← offs.getLast?
    let cont := decide (offs.IsChain fun a b => a.2 = b.1) && decide (first.1 = 0)
    some (cont && decide (file.length = ds + last.2))
  | some _ => none

/-- The check of a layer, for the `num_experts` of the configuration. -/
def validateLayer (out : Directory J) (oidx : Dict String String) (num : Option ℕ) (L : ℕ) :
    Option Bool := do
  let sh ← oidx.get? (gateName L)
  match out.get? sh with
  | some (.bytes file) =>
    let (_, _, gsh) ← readTensorBytes py.codec file (gateName L)
    let rows ← gsh.head?
    let experts := oidx.keys.filterMap (expertIn py.decimals L)
    let highest ← experts.max?
    some (decide (num = some rows) && decide (num = some (highest + 1)) &&
      decide (num.map (· * 12) = some experts.length))
  | _ => none

/-- `validate`.  `num` is the number that a JSON value is equal to, if there is one. -/
def validate (num : J → Option ℕ) (out snap : Directory J) : Option Bool :=
  match snap.get? indexName, out.get? indexName, out.get? configName with
  | some (.index _ _), some (.index _ oidx), some (.config oconf) => do
    let N ← oconf.get? "num_experts"
    let okShards ← checkAll (validateShard py out) (shardsOf oidx).keys
    let layers ← spotLayers (moeLayers py.decimals oidx.keys)
    let okLayers ← checkAll (validateLayer py out oidx (num N)) layers
    some (okShards && okLayers)
  | _, _, _ => none

end

/-! ### What is accepted -/

theorem checkAll_eq_true {α : Type} {check : α → Option Bool} {l : List α} :
    checkAll check l = some true ↔ ∀ a ∈ l, check a = some true := by
  induction l with
  | nil => simp [checkAll]
  | cons a l ih =>
    rw [List.forall_mem_cons, ← ih, checkAll]
    cases check a with
    | none => simp
    | some ok =>
      cases checkAll check l with
      | none => simp
      | some oks => simp

/-- Lists are mapped entry by entry. -/
theorem mapM_eq_some {α β : Type} {f : α → Option β} {l : List α} {r : List β} :
    l.mapM f = some r ↔ l.map f = r.map some := by
  induction l generalizing r with
  | nil => cases r <;> simp
  | cons a l ih =>
    rw [List.mapM_cons]
    cases r with
    | nil => cases f a <;> cases l.mapM f <;> simp
    | cons b r =>
      rw [List.map_cons, List.map_cons, List.cons.injEq, ← ih]
      cases f a with
      | none => simp
      | some b' => cases l.mapM f <;> simp

/-- A permutation of values that are there. -/
theorem exists_of_perm_map_some {α : Type} {l : List (Option α)} {r : List α}
    (h : l.Perm (r.map some)) : ∃ offs : List α, l = offs.map some ∧ offs.Perm r := by
  refine ⟨l.reduceOption, ?_, ?_⟩
  · have hall : ∀ x ∈ l, x ∈ r.map some := fun x hx => h.mem_iff.mp hx
    clear h
    induction l with
    | nil => rfl
    | cons x l ih =>
      obtain ⟨a, -, rfl⟩ := List.mem_map.mp (hall x List.mem_cons_self)
      rw [List.reduceOption_cons_of_some, List.map_cons,
        ← ih fun y hy => hall y (List.mem_cons_of_mem _ hy)]
  · have hfilter := h.filterMap id
    rwa [List.filterMap_map, Function.id_comp, List.filterMap_some] at hfilter

/-- The spans of the tensors of a header. -/
def headerSpans {J : Type} (hdr : Header J) : List (Option (ℕ × ℕ)) :=
  (hdr.entries.filter fun e => e.1 ≠ metadataKey).map fun e => e.2.dataOffsets

instance : Std.Total spanLe where
  total a b := by
    unfold spanLe
    omega

instance : IsTrans (ℕ × ℕ) spanLe where
  trans a b c := by
    unfold spanLe
    omega

instance : Std.Antisymm spanLe where
  antisymm a b := by
    unfold spanLe
    intro hab hba
    exact Prod.ext (by omega) (by omega)

/-- Spans in order, the first from zero, each to the start of the next, the last to `size`. -/
structure Packed (spans : List (ℕ × ℕ)) (size : ℕ) : Prop where
  sorted : spans.Pairwise spanLe
  chain : spans.IsChain fun a b => a.2 = b.1
  first : ∃ span, spans.head? = some span ∧ span.1 = 0
  last : ∃ span, spans.getLast? = some span ∧ span.2 = size

/-- **Packed spans lie in the data**, unless the last one ends before it starts. -/
theorem Packed.inside {spans : List (ℕ × ℕ)} {size : ℕ} (h : Packed spans size)
    (hlast : ∀ span, spans.getLast? = some span → span.1 ≤ span.2) :
    ∀ span ∈ spans, span.1 ≤ span.2 ∧ span.2 ≤ size := by
  obtain ⟨hsorted, hchain, -, last, hget, hend⟩ := h
  induction spans with
  | nil => exact fun _ h => absurd h List.not_mem_nil
  | cons a rest ih =>
    cases rest with
    | nil =>
      intro span hspan
      obtain rfl := List.mem_singleton.mp hspan
      obtain rfl : span = last := by simpa using hget
      exact ⟨hlast span rfl, hend.le⟩
    | cons b rest =>
      rw [List.getLast?_cons_cons] at hget hlast
      rw [List.isChain_cons_cons] at hchain
      have hrest := ih hlast hsorted.of_cons hchain.2 hget
      have hle : a.1 ≤ b.1 := by
        have hab := (List.pairwise_cons.mp hsorted).1 b List.mem_cons_self
        unfold spanLe at hab
        omega
      have hb := hrest b List.mem_cons_self
      intro span hspan
      rcases List.mem_cons.mp hspan with rfl | hspan
      · have hnext := hchain.1
        omega
      · exact hrest span hspan

section
variable {J : Type} {py : Python J} {out : Directory J}

theorem sortedOffsets_eq_some {hdr : Header J} {spans : List (ℕ × ℕ)} :
    sortedOffsets hdr = some spans ↔
      ∃ offs : List (ℕ × ℕ), headerSpans hdr = offs.map some ∧
        spans = offs.insertionSort spanLe := by
  unfold sortedOffsets headerSpans
  constructor
  · intro h
    obtain ⟨offs, hoffs, h⟩ := Option.bind_eq_some_iff.mp h
    exact ⟨offs, mapM_eq_some.mp hoffs, (Option.some.inj h).symm⟩
  · rintro ⟨offs, hoffs, rfl⟩
    rw [mapM_eq_some.mpr hoffs]
    rfl

/-- What is accepted of a shard. -/
def ShardAccepted (py : Python J) (out : Directory J) (sh : String) : Prop :=
  ∃ file hdr ds spans size, out.get? sh = some (.bytes file) ∧
    parseHeader py.codec file = some (hdr, ds) ∧ (headerSpans hdr).Perm (spans.map some) ∧
    Packed spans size ∧ file.length = ds + size

theorem validateShard_eq_true {sh : String} :
    validateShard py out sh = some true ↔ ShardAccepted py out sh := by
  constructor
  · intro h
    unfold validateShard at h
    split at h
    · cases h
    · next file hfile =>
      obtain ⟨⟨hdr, ds⟩, hhdr, h⟩ := Option.bind_eq_some_iff.mp h
      obtain ⟨spans, hspans, h⟩ := Option.bind_eq_some_iff.mp h
      obtain ⟨first, hfirst, h⟩ := Option.bind_eq_some_iff.mp h
      obtain ⟨last, hlast, h⟩ := Option.bind_eq_some_iff.mp h
      simp only [Option.some.injEq, Bool.and_eq_true, decide_eq_true_eq] at h
      obtain ⟨⟨hchain, hzero⟩, hsize⟩ := h
      obtain ⟨offs, hoffs, rfl⟩ := sortedOffsets_eq_some.mp hspans
      refine ⟨file, hdr, ds, _, last.2, hfile, hhdr, ?_,
        ⟨List.pairwise_insertionSort spanLe offs, hchain, ⟨first, hfirst, hzero⟩,
          ⟨last, hlast, rfl⟩⟩, hsize⟩
      rw [hoffs]
      exact (List.perm_insertionSort spanLe offs).symm.map some
    · cases h
  · rintro ⟨file, hdr, ds, spans, size, hfile, hhdr, hperm, hpacked, hsize⟩
    obtain ⟨first, hfirst, hzero⟩ := hpacked.first
    obtain ⟨last, hlast, hend⟩ := hpacked.last
    obtain ⟨offs, hoffs, hoffsPerm⟩ := exists_of_perm_map_some hperm
    have hsorted : sortedOffsets hdr = some spans := by
      refine sortedOffsets_eq_some.mpr ⟨offs, hoffs, ?_⟩
      exact ((List.perm_insertionSort spanLe offs).trans hoffsPerm).symm.eq_of_pairwise'
        hpacked.sorted (List.pairwise_insertionSort spanLe offs)
    simp [validateShard, hfile, hhdr, hsorted, hfirst, hlast, hpacked.chain, hzero, hend, hsize]

/-- What is accepted of a layer, for the number `N` of experts. -/
structure LayerAccepted (py : Python J) (out : Directory J) (oidx : Dict String String)
    (N L : ℕ) : Prop where
  router : ∃ sh t, t.name = gateName L ∧ HasTensor py.codec out oidx sh t ∧
    t.shape.head? = some N
  highest : CountOf (ExpertOf py.decimals oidx.keys L) N
  tensors : (oidx.keys.filterMap (expertIn py.decimals L)).length = N * 12

theorem expertIn_eq_some {dec : Decimals} {L e : ℕ} {name : String} :
    expertIn dec L name = some e ↔
      ∃ m, expertMatch dec name = some m ∧ dec.int m.layer = L ∧ dec.int m.expert = e := by
  unfold expertIn
  cases expertMatch dec name with
  | none => simp
  | some m => simp

theorem mem_experts {dec : Decimals} {L e : ℕ} {names : List String} :
    e ∈ names.filterMap (expertIn dec L) ↔ ExpertOf dec names L e := by
  rw [List.mem_filterMap]
  exact exists_congr fun name => and_congr_right fun _ => expertIn_eq_some

/-- The highest expert of a layer, and its count. -/
theorem max?_experts {dec : Decimals} {L highest : ℕ} {names : List String} :
    (names.filterMap (expertIn dec L)).max? = some highest ↔
      CountOf (ExpertOf dec names L) (highest + 1) := by
  rw [List.max?_eq_some_iff]
  constructor
  · rintro ⟨hmem, hmax⟩
    exact ⟨fun e he => Nat.lt_succ_of_le (hmax e (mem_experts.mpr he)),
      highest, mem_experts.mp hmem, rfl⟩
  · rintro ⟨hbelow, e, he, hlast⟩
    obtain rfl : e = highest := by omega
    exact ⟨mem_experts.mpr he, fun e' he' => Nat.le_of_lt_succ (hbelow e' (mem_experts.mp he'))⟩

theorem validateLayer_eq_true {oidx : Dict String String} {num : Option ℕ} {L : ℕ} :
    validateLayer py out oidx num L = some true ↔
      ∃ N, num = some N ∧ LayerAccepted py out oidx N L := by
  constructor
  · intro h
    unfold validateLayer at h
    obtain ⟨sh, hsh, h⟩ := Option.bind_eq_some_iff.mp h
    split at h
    · next file hfile =>
      obtain ⟨⟨bytes, dtype, gsh⟩, hread, h⟩ := Option.bind_eq_some_iff.mp h
      obtain ⟨rows, hrows, h⟩ := Option.bind_eq_some_iff.mp h
      obtain ⟨highest, hmax, h⟩ := Option.bind_eq_some_iff.mp h
      simp only [Option.some.injEq, Bool.and_eq_true, decide_eq_true_eq] at h
      obtain ⟨⟨hnum, hhighest⟩, htensors⟩ := h
      obtain rfl : rows = highest + 1 := Option.some.inj (hnum.symm.trans hhighest)
      refine ⟨highest + 1, hnum, ⟨sh, ⟨gateName L, dtype, gsh, bytes⟩, rfl, ⟨hsh, file, hfile,
        hread⟩, hrows⟩, max?_experts.mp hmax, ?_⟩
      rw [hnum, Option.map_some, Option.some.injEq] at htensors
      exact htensors.symm
    · cases h
  · rintro ⟨N, rfl, ⟨sh, t, hname, ⟨hsh, file, hfile, hread⟩, hrows⟩, hhighest, htensors⟩
    obtain ⟨e, -, rfl⟩ := hhighest.last
    have hmax := max?_experts.mpr hhighest
    rw [hname] at hsh hread
    simp [validateLayer, hsh, hfile, hread, hrows, hmax, htensors]

/-! ### The layers that are looked at -/

theorem mem_moeLayers {dec : Decimals} {names : List String} {L : ℕ} :
    L ∈ moeLayers dec names ↔ MoeLayer dec names L := by
  rw [moeLayers, List.mem_insertionSort, List.mem_dedup, List.mem_filterMap]
  constructor
  · rintro ⟨name, hname, hL⟩
    obtain ⟨m, hm, rfl⟩ := Option.map_eq_some_iff.mp hL
    exact ⟨dec.int m.expert, name, hname, m, hm, rfl, rfl⟩
  · rintro ⟨e, name, hname, m, hm, rfl, -⟩
    exact ⟨name, hname, Option.map_eq_some_iff.mpr ⟨m, hm, rfl⟩⟩

/-- The layers that are looked at are layers, and there are some as soon as there is one. -/
theorem spotLayers_mem {moe layers : List ℕ} (h : spotLayers moe = some layers) {L : ℕ}
    (hL : L ∈ layers) : L ∈ moe := by
  unfold spotLayers at h
  obtain ⟨first, hfirst, h⟩ := Option.bind_eq_some_iff.mp h
  obtain ⟨middle, hmiddle, h⟩ := Option.bind_eq_some_iff.mp h
  obtain ⟨last, hlast, h⟩ := Option.bind_eq_some_iff.mp h
  rw [← Option.some.inj h] at hL
  simp only [List.mem_cons, List.not_mem_nil, or_false] at hL
  rcases hL with rfl | rfl | rfl
  · exact List.mem_of_mem_head? hfirst
  · exact List.mem_of_getElem? hmiddle
  · exact List.mem_of_getLast? hlast

theorem exists_spotLayers {moe : List ℕ} (h : moe ≠ []) :
    ∃ first layers, spotLayers moe = some (first :: layers) := by
  have hpos : 0 < moe.length := List.length_pos_of_ne_nil h
  have hhalf : moe.length / 2 < moe.length := Nat.div_lt_self hpos (by decide)
  refine ⟨moe.head h, [moe[moe.length / 2], moe.getLast h], ?_⟩
  simp [spotLayers, List.head?_eq_some_head h, List.getElem?_eq_getElem hhalf,
    List.getLast?_eq_some_getLast h]

/-! ### The directory -/

/-- What is accepted of a directory. -/
structure Accepted (py : Python J) (num : J → Option ℕ) (out : Directory J)
    (oidx : Dict String String) (N : ℕ) (layers : List ℕ) : Prop where
  index : ∃ total, out.get? indexName = some (.index total oidx)
  config : ∃ oconf value, out.get? configName = some (.config oconf) ∧
    oconf.get? "num_experts" = some value ∧ num value = some N
  shards : ∀ nm sh, oidx.get? nm = some sh → ShardAccepted py out sh
  spot : spotLayers (moeLayers py.decimals oidx.keys) = some layers
  layer : ∀ L ∈ layers, LayerAccepted py out oidx N L

theorem validate_eq_true {num : J → Option ℕ} {snap : Directory J} :
    validate py num out snap = some true ↔
      (∃ total idx, snap.get? indexName = some (.index total idx)) ∧
        ∃ oidx N layers, Accepted py num out oidx N layers := by
  constructor
  · intro h
    unfold validate at h
    split at h
    · next t idx total oidx oconf hsnap hindex hconfig =>
      obtain ⟨value, hvalue, h⟩ := Option.bind_eq_some_iff.mp h
      obtain ⟨okShards, hshards, h⟩ := Option.bind_eq_some_iff.mp h
      obtain ⟨layers, hspot, h⟩ := Option.bind_eq_some_iff.mp h
      obtain ⟨okLayers, hlayers, h⟩ := Option.bind_eq_some_iff.mp h
      obtain ⟨rfl, rfl⟩ := Bool.and_eq_true_iff.mp (Option.some.inj h)
      rw [checkAll_eq_true] at hshards hlayers
      have hlayer := fun L hL => validateLayer_eq_true.mp (hlayers L hL)
      -- there is a layer that was looked at, and it fixes the number
      have hne : moeLayers py.decimals oidx.keys ≠ [] := by
        intro hnil
        rw [hnil] at hspot
        cases hspot
      obtain ⟨first, rest, hfirst⟩ := exists_spotLayers hne
      obtain rfl := Option.some.inj (hfirst.symm.trans hspot)
      obtain ⟨N, hN, -⟩ := hlayer first List.mem_cons_self
      refine ⟨⟨t, idx, hsnap⟩, oidx, N, first :: rest, ⟨total, hindex⟩,
        ⟨oconf, value, hconfig, hvalue, hN⟩, fun nm sh hnm => ?_, hspot, fun L hL => ?_⟩
      · exact validateShard_eq_true.mp (hshards sh (mem_keys_shardsOf.mpr ⟨nm, hnm⟩))
      · obtain ⟨N', hN', haccepted⟩ := hlayer L hL
        rwa [Option.some.inj (hN.symm.trans hN')]
    · cases h
  · rintro ⟨⟨t, idx, hsnap⟩, oidx, N, layers, haccepted⟩
    obtain ⟨total, hindex⟩ := haccepted.index
    obtain ⟨oconf, value, hconfig, hvalue, hN⟩ := haccepted.config
    have hshards : checkAll (validateShard py out) (shardsOf oidx).keys = some true := by
      refine checkAll_eq_true.mpr fun sh hsh => ?_
      obtain ⟨nm, hnm⟩ := mem_keys_shardsOf.mp hsh
      exact validateShard_eq_true.mpr (haccepted.shards nm sh hnm)
    have hlayers : checkAll (validateLayer py out oidx (num value)) layers = some true :=
      checkAll_eq_true.mpr fun L hL =>
        validateLayer_eq_true.mpr ⟨N, hN, haccepted.layer L hL⟩
    simp [validate, hsnap, hindex, hconfig, hvalue, hshards, haccepted.spot, hlayers]

end

/-- **What an accepted directory is known to have.** The shards of the index are packed, so
their tensors lie in the data unless the last one ends before it starts; and in the
first, the middle and the last MoE layer the router's weight is in its shard with `N` rows,
the highest expert is `N - 1`, and the index has twelve names for each of `N` experts. -/
theorem validate_sound {J : Type} {py : Python J} {num : J → Option ℕ} {out snap : Directory J}
    (h : validate py num out snap = some true) :
    ∃ total oidx oconf value N, out.get? indexName = some (.index total oidx) ∧
      out.get? configName = some (.config oconf) ∧ oconf.get? "num_experts" = some value ∧
      num value = some N ∧
      (∀ nm sh, oidx.get? nm = some sh → ∃ file hdr ds spans size,
        out.get? sh = some (.bytes file) ∧ parseHeader py.codec file = some (hdr, ds) ∧
        (headerSpans hdr).Perm (spans.map some) ∧ Packed spans size ∧ file.length = ds + size ∧
        ((∀ span, spans.getLast? = some span → span.1 ≤ span.2) →
          ∀ span ∈ spans, span.1 ≤ span.2 ∧ span.2 ≤ size)) ∧
      ∃ layers, spotLayers (moeLayers py.decimals oidx.keys) = some layers ∧
        ∀ L ∈ layers, LayerAccepted py out oidx N L := by
  obtain ⟨-, oidx, N, layers, haccepted⟩ := validate_eq_true.mp h
  obtain ⟨total, hindex⟩ := haccepted.index
  obtain ⟨oconf, value, hconfig, hvalue, hN⟩ := haccepted.config
  refine ⟨total, oidx, oconf, value, N, hindex, hconfig, hvalue, hN, fun nm sh hnm => ?_,
    layers, haccepted.spot, haccepted.layer⟩
  obtain ⟨file, hdr, ds, spans, size, hfile, hhdr, hperm, hpacked, hsize⟩ :=
    haccepted.shards nm sh hnm
  exact ⟨file, hdr, ds, spans, size, hfile, hhdr, hperm, hpacked, hsize, hpacked.inside⟩

/-! ### What slips through -/

/-- What the shard of an indexed tensor says of it: its offsets, if it is in the header,
and the length of the data. -/
def spanOf {J : Type} (py : Python J) (out : Directory J) (oidx : Dict String String)
    (nm : String) : Option (Option (ℕ × ℕ) × ℕ) := do
  let sh ← oidx.get? nm
  match out.get? sh with
  | some (.bytes file) =>
    let (hdr, ds) ← parseHeader py.codec file
    some ((hdr.get? nm).bind HeaderEntry.dataOffsets, file.length - ds)
  | _ => none

/-- Every name of an index is in the header of its shard. -/
def NamesPresent {J : Type} (py : Python J) (out : Directory J) (oidx : Dict String String) :
    Prop :=
  ∀ nm ∈ oidx.keys, ∃ span size, spanOf py out oidx nm = some (some span, size)

/-- The bytes of every tensor of an index are in the data of its shard. -/
def OffsetsInside {J : Type} (py : Python J) (out : Directory J) (oidx : Dict String String) :
    Prop :=
  ∀ nm span size, spanOf py out oidx nm = some (some span, size) →
    span.1 ≤ span.2 ∧ span.2 ≤ size

/-- Every MoE layer has the experts below `N`. -/
def ExpertsNumbered (dec : Decimals) (names : List String) (N : ℕ) : Prop :=
  ∀ L, MoeLayer dec names L → ∀ e, ExpertOf dec names L e ↔ e < N

/-- Every MoE layer has a router's weight and bias of `N` rows. -/
def RoutersPresent {J : Type} (py : Python J) (out : Directory J) (oidx : Dict String String)
    (N : ℕ) : Prop :=
  ∀ L, MoeLayer py.decimals oidx.keys L → ∀ name ∈ [gateName L, biasName L],
    ∃ sh t, t.name = name ∧ HasTensor py.codec out oidx sh t ∧ t.shape.head? = some N

/-- JSON in bytes: a text, in which a newline is escaped. -/
def textBytes (text : String) : List UInt8 :=
  jsonBytes "\"" ++
    (jsonBytes text).flatMap (fun b => if b = 10 then jsonBytes "\\n" else [b]) ++ jsonBytes "\""

/-- A number, a list, an object, and an entry of one. -/
def numberBytes (n : ℕ) : List UInt8 := (Nat.toDigits 10 n).map fun c => UInt8.ofNat c.toNat

def arrayBytes (items : List (List UInt8)) : List UInt8 :=
  jsonBytes "[" ++ (jsonBytes ", ").intercalate items ++ jsonBytes "]"

def objectBytes (items : List (List UInt8)) : List UInt8 :=
  jsonBytes "\x7b" ++ (jsonBytes ", ").intercalate items ++ jsonBytes "\x7d"

def entryBytes (key : String) (value : List UInt8) : List UInt8 :=
  textBytes key ++ jsonBytes ": " ++ value

/-- A header whose metadata are texts. -/
def headerBytes (h : Header String) : List UInt8 :=
  objectBytes (h.entries.map fun e => entryBytes e.1 (match e.2 with
    | .metadata m => objectBytes (m.entries.map fun d => entryBytes d.1 (textBytes d.2))
    | .tensor info => objectBytes [entryBytes "dtype" (textBytes info.dtype),
        entryBytes "shape" (arrayBytes (info.shape.map numberBytes)),
        entryBytes "data_offsets" (arrayBytes
          [numberBytes info.dataOffsets.1, numberBytes info.dataOffsets.2])]))

/-- The header of the routers of some layers, and tensors behind them. -/
def slipHeader (layers : List ℕ) (rows : ℕ) (more : List (String × TensorInfo)) : Header String :=
  Dict.ofPairs ((layers.zipIdx.map fun (L, i) =>
    (gateName L, .tensor ⟨"U8", [rows], (i * rows, i * rows + rows)⟩)) ++
      more.map fun e => (e.1, .tensor e.2))

/-- The headers of the three models. -/
def reversedHeader : Header String := slipHeader [0] 1 [("x", ⟨"U8", [0], (1, 0)⟩)]
def gapHeader : Header String := slipHeader [0] 2 []
def layerHeader : Header String := slipHeader [0, 2, 3] 1 []

/-- JSON, as far as the three headers go. -/
def slipPython : Python String where
  decimals := .ascii
  codec :=
    { dumps := headerBytes
      loads := fun bytes => [reversedHeader, gapHeader, layerHeader].find?
        fun h => headerBytes h = bytes }
  number := toString

/-- The number that a JSON text is, as far as the models go. -/
def slipNumber (text : String) : Option ℕ := (List.range 5).find? fun n => toString n = text

/-- The index of names of one shard. -/
def slipIndex (names : List String) : Dict String String :=
  Dict.ofPairs (names.map fun nm => (nm, shardName))

/-- A directory of one shard. -/
def slipModel (names : List String) (hdr : Header String) (size N : ℕ) : Directory String :=
  Dict.ofPairs [(indexName, .index size (slipIndex names)),
    (configName, .config (Dict.ofPairs [("num_experts", toString N)])),
    (shardName, .bytes (littleEndian 8 (headerBytes hdr).length ++ headerBytes hdr ++
      List.replicate size 0))]

/-- The suffix of an expert's tensor. -/
def slipSuffix (i : ℕ) : List Char := 'w' :: Nat.toDigits 10 i

/-- `count` tensors of an expert. -/
def slipExpert (L e count : ℕ) : List String :=
  (List.range count).map fun i => expertName L e (slipSuffix i)

/-- A router and an expert of layer 0. -/
def oneExpert : List String := gateName 0 :: slipExpert 0 0 12

/-- Expert 1 has the tensors of two experts. -/
def gapNames : List String := gateName 0 :: slipExpert 0 1 24

/-- Layer 1 of four has an expert 5. -/
def layerNames : List String :=
  [0, 2, 3].flatMap (fun L => gateName L :: slipExpert L 0 12) ++ slipExpert 1 5 1

def reversedModel : Directory String := slipModel oneExpert reversedHeader 0 1
def gapModel : Directory String := slipModel gapNames gapHeader 2 2
def layerModel : Directory String := slipModel layerNames layerHeader 3 1

/-- The accepted models. -/
theorem slip_accepted :
    validate slipPython slipNumber reversedModel reversedModel = some true ∧
    validate slipPython slipNumber gapModel gapModel = some true ∧
    validate slipPython slipNumber layerModel layerModel = some true := by
  refine ⟨?_, ?_, ?_⟩ <;> decide +kernel

/-- What is known of the model whose expert is in no header. -/
theorem validate_sound_reversed :
    ∃ total oidx oconf value N, reversedModel.get? indexName = some (.index total oidx) ∧
      reversedModel.get? configName = some (.config oconf) ∧
      oconf.get? "num_experts" = some value ∧ slipNumber value = some N ∧
      (∀ nm sh, oidx.get? nm = some sh → ∃ file hdr ds spans size,
        reversedModel.get? sh = some (.bytes file) ∧
        parseHeader slipPython.codec file = some (hdr, ds) ∧
        (headerSpans hdr).Perm (spans.map some) ∧ Packed spans size ∧ file.length = ds + size ∧
        ((∀ span, spans.getLast? = some span → span.1 ≤ span.2) →
          ∀ span ∈ spans, span.1 ≤ span.2 ∧ span.2 ≤ size)) ∧
      ∃ layers, spotLayers (moeLayers slipPython.decimals oidx.keys) = some layers ∧
        ∀ L ∈ layers, LayerAccepted slipPython reversedModel oidx N L :=
  validate_sound slip_accepted.1

theorem mem_keys_slipIndex {names : List String} {nm : String} :
    nm ∈ (slipIndex names).keys ↔ nm ∈ names := by
  rw [slipIndex, Dict.mem_keys_ofPairs, List.map_map]
  exact (List.map_id names).symm ▸ Iff.rfl

theorem expertMatch_slip (L e i : ℕ) (hi : i < 24) :
    expertMatch slipPython.decimals (expertName L e (slipSuffix i)) =
      some ⟨Nat.toDigits 10 L, Nat.toDigits 10 e, slipSuffix i⟩ := by
  have hline : ∀ i < 24, '\n' ∉ slipSuffix i := by decide
  exact expertMatch_expertName L e (List.cons_ne_nil _ _) (hline i hi)

/-- An expert with a tensor in the index. -/
theorem expertOf_slip {names : List String} {L e : ℕ}
    (h : expertName L e (slipSuffix 0) ∈ names) :
    ExpertOf slipPython.decimals (slipIndex names).keys L e :=
  ⟨_, mem_keys_slipIndex.mpr h, _, expertMatch_slip L e 0 (by decide), int_toDigits _ L,
    int_toDigits _ e⟩

/-- `gapModel` has no expert 0. -/
theorem gap_not_expertOf : ¬ ExpertOf slipPython.decimals (slipIndex gapNames).keys 0 0 := by
  rintro ⟨nm, hnm, m, hm, -, he⟩
  rcases List.mem_cons.mp (mem_keys_slipIndex.mp hnm) with rfl | hexpert
  · have hrouter : router slipPython.decimals (gateName 0) = some ['0'] := by decide
    rw [expertMatch_of_router hrouter] at hm
    cases hm
  · obtain ⟨i, hi, rfl⟩ := List.mem_map.mp hexpert
    rw [expertMatch_slip 0 1 i (List.mem_range.mp hi), Option.some.injEq] at hm
    rw [← hm, int_toDigits] at he
    cases he

/-- In `reversedModel` the one expert is in no header, the router is and lies outside the
data, and there is no bias. -/
theorem reversed_spanOf :
    spanOf slipPython reversedModel (slipIndex oneExpert) (expertName 0 0 (slipSuffix 0)) =
      some (none, 0) ∧
    spanOf slipPython reversedModel (slipIndex oneExpert) (gateName 0) = some (some (0, 1), 0) ∧
    (slipIndex oneExpert).get? (biasName 0) = none := by
  refine ⟨?_, ?_, ?_⟩ <;> decide +kernel

/-- **What slips through**: experts that are in the index only, a last tensor that ends
before it starts, which leaves the router outside the data, and a layer without a bias; a
layer with two experts' tensors under one number; and a layer that is not looked at. -/
theorem validate_misses :
    (validate slipPython slipNumber reversedModel reversedModel = some true ∧
      ¬ NamesPresent slipPython reversedModel (slipIndex oneExpert) ∧
      ¬ OffsetsInside slipPython reversedModel (slipIndex oneExpert) ∧
      ¬ RoutersPresent slipPython reversedModel (slipIndex oneExpert) 1) ∧
    (validate slipPython slipNumber gapModel gapModel = some true ∧
      ¬ ExpertsNumbered slipPython.decimals (slipIndex gapNames).keys 2) ∧
    (validate slipPython slipNumber layerModel layerModel = some true ∧
      ¬ ExpertsNumbered slipPython.decimals (slipIndex layerNames).keys 1) := by
  obtain ⟨hreversed, hgap, hlayer⟩ := slip_accepted
  obtain ⟨habsent, houtside, hbias⟩ := reversed_spanOf
  have hone : expertName 0 0 (slipSuffix 0) ∈ oneExpert :=
    List.mem_cons_of_mem _ (List.mem_map_of_mem (by decide))
  refine ⟨⟨hreversed, fun h => ?_, fun h => ?_, fun h => ?_⟩, ⟨hgap, fun h => ?_⟩,
    hlayer, fun h => ?_⟩
  · obtain ⟨span, size, hspan⟩ := h _ (mem_keys_slipIndex.mpr hone)
    have hsame := habsent.symm.trans hspan
    simp at hsame
  · exact absurd (h _ _ _ houtside).2 (by decide)
  · obtain ⟨sh, t, hname, ⟨hindex, -⟩, -⟩ := h 0 ⟨0, expertOf_slip hone⟩ (biasName 0)
      (List.mem_cons_of_mem _ List.mem_cons_self)
    rw [hname, hbias] at hindex
    cases hindex
  · have hgapOne : expertName 0 1 (slipSuffix 0) ∈ gapNames :=
      List.mem_cons_of_mem _ (List.mem_map_of_mem (by decide))
    exact gap_not_expertOf ((h 0 ⟨1, expertOf_slip hgapOne⟩ 0).mpr (by decide))
  · have hfive : expertName 1 5 (slipSuffix 0) ∈ layerNames :=
      List.mem_append_right _ (List.mem_map_of_mem (by decide))
    have hlt := (h 1 ⟨5, expertOf_slip hfive⟩ 5).mp (expertOf_slip hfive)
    omega

end Glm52.ExpertPrune
