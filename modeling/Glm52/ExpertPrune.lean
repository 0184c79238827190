import Glm52.Safetensors
import Glm52.TensorNames
import Mathlib.Data.List.Sort

/-! # Pruning experts

`build` copies a snapshot without some experts of its MoE layers.  The tensors of the
experts that stay are renamed to the experts' places in the keep list of their layer, the
router's weight and bias lose the other rows, and everything else is copied; a shard is
rewritten as the tensors it is left with.  Which experts stay is a parameter. -/
namespace Glm52.ExpertPrune
open TensorNames

/-! ### The program -/

/-- A file of a directory: its bytes, or what its JSON says. -/
inductive SnapFile (J : Type)
  | bytes (b : List UInt8)
  | index (totalSize : ℕ) (weightMap : Dict String String)
  | config (entries : Dict String J)

/-- The files of a directory by their names. -/
abbrev Directory (J : Type) := Dict String (SnapFile J)

/-- What the program has from Python: the digits, the JSON of headers, and JSON numbers. -/
structure Python (J : Type) where
  decimals : Decimals
  codec : HeaderCodec J
  number : ℕ → J

/-- `"model.safetensors.index.json"`. -/
def indexName : String := "model.safetensors.index.json"

/-- `"config.json"`. -/
def configName : String := "config.json"

section
variable (dec : Decimals)

/-- `expert_counts`: one more than the highest expert, by layer. -/
def expertCounts (names : List String) : Dict ℕ ℕ :=
  names.foldl (fun counts name =>
    match expertMatch dec name with
    | some m =>
      let L := dec.int m.layer
      counts.set L (max ((counts.get? L).getD 0) (dec.int m.expert + 1))
    | none => counts) Dict.empty

/-- `fixed_drop_keeplist`: the experts that are not on a list. -/
def fixedDropKeeplist (drop : List ℕ) (e0 _L : ℕ) : List ℕ :=
  (List.range e0).filter fun e => e ∉ drop

/-- What is decided before a shard is read: the keep lists, the new numbers, and `N`. -/
structure Plan where
  keep : Dict ℕ (List ℕ)
  old2new : Dict ℕ (Dict ℕ ℕ)
  count : ℕ

/-- The first half of `build`.  It fails without a MoE layer, when the layers' counts
differ, and when the keep lists' lengths do. -/
def plan (select : ℕ → ℕ → List ℕ) (idx : Dict String String) : Option Plan := do
  let counts := expertCounts dec idx.keys
  let moe := counts.keys.insertionSort (· ≤ ·)
  -- `moe[0]`, an IndexError without MoE layers
  let first ← moe.head?
  let e0 ← counts.get? first
  if counts.entries.all fun e => e.2 = e0 then
    let keep := Dict.ofPairs (moe.map fun L => (L, select e0 L))
    let kept ← keep.get? first
    if keep.entries.all fun e => e.2.length = kept.length then
      let old2new := Dict.ofPairs (keep.entries.map fun e => (e.1, Dict.ofPairs e.2.zipIdx))
      some ⟨keep, old2new, kept.length⟩
    else none
  else none

/-- What becomes of a tensor. -/
inductive Fate
  | rename (name : String)
  | drop
  | slice
  | keep
deriving DecidableEq

/-- `fate`. -/
def fate (plan : Plan) (name : String) : Option Fate :=
  match expertMatch dec name with
  | some m => do
    let table ← plan.old2new.get? (dec.int m.layer)
    -- an expert is renamed to its place in the keep list, or dropped
    match table.get? (dec.int m.expert) with
    | some j => some (.rename (expertName (dec.int m.layer) j m.suffix))
    | none => some .drop
  | none =>
    match router dec name with
    | some layer => if dec.int layer ∈ plan.keep.keys then some .slice else some .keep
    | none => some .keep

/-- `buf[i*rb:(i+1)*rb]`. -/
def row (rb : ℕ) (buf : List UInt8) (i : ℕ) : List UInt8 := (buf.drop (i * rb)).take rb

/-- `row_slice`: the rows that stay, and the shape.  It fails on a tensor without a
dimension or without rows, and when the rows do not come out even. -/
def rowSlice (buf : List UInt8) (shape : List ℕ) (keep : List ℕ) :
    Option (List UInt8 × List ℕ) :=
  match shape with
  | [] => none
  | rows :: dims =>
    if rows ≠ 0 ∧ buf.length / rows * rows = buf.length then
      some (keep.flatMap (row (buf.length / rows) buf), keep.length :: dims)
    else none

/-- A tensor of a shard, by the shard's header. -/
def loadTensor {J : Type} (hdr : Header J) (ds : ℕ) (file : List UInt8) (name : String) :
    Option TensorRecord :=
  match hdr.get? name with
  | some (.tensor info) =>
    (readSpan file ds info.dataOffsets).map fun buf => ⟨name, info.dtype, info.shape, buf⟩
  | _ => none

/-- A tensor of a shard: what is written for it, if anything. -/
def pruneTensor {J : Type} (plan : Plan) (hdr : Header J) (ds : ℕ) (file : List UInt8)
    (name : String) : Option (Option TensorRecord) := do
  match ← fate dec plan name with
  | .drop => some none
  | .rename newName =>
    let t ← loadTensor hdr ds file name
    some (some { t with name := newName })
  | .slice =>
    let t ← loadTensor hdr ds file name
    let layer ← layerMatch dec name
    let kept ← plan.keep.get? (dec.int layer)
    let (buf, shape) ← rowSlice t.bytes t.shape kept
    some (some { t with shape := shape, bytes := buf })
  | .keep =>
    let t ← loadTensor hdr ds file name
    some (some t)

end

/-- The tensors of a shard, one after another. -/
def pruneTensors (prune : String → Option (Option TensorRecord)) :
    List String → Option (List TensorRecord)
  | [] => some []
  | name :: names => do
    let t ← prune name
    let rest ← pruneTensors prune names
    some (t.toList ++ rest)

/-- The names of each shard, in the order of the index. -/
def shardsOf (idx : Dict String String) : Dict String (List String) :=
  idx.entries.foldl (fun d e => d.set e.2 ((d.get? e.2).getD [] ++ [e.1])) Dict.empty

section
variable {J : Type} (py : Python J)

/-- `hdr.get("__metadata__")`; the key is no tensor's. -/
def metadataOf (hdr : Header J) : Option (Dict String J) :=
  match hdr.get? metadataKey with
  | some (.metadata m) => some m
  | _ => none

/-- `out_t` of a shard, with the shard's header. -/
def outTensors (plan : Plan) (snap : Directory J) (shards : Dict String (List String))
    (sh : String) : Option (Header J × List TensorRecord) := do
  match snap.get? sh with
  | some (.bytes file) =>
    let (hdr, ds) ← parseHeader py.codec file
    let names ← shards.get? sh
    let tensors ← pruneTensors (pruneTensor py.decimals plan hdr ds file) names
    some (hdr, tensors)
  | _ => none

/-- The output directory, the new index, and the sum of the lengths. -/
structure Progress (J : Type) where
  out : Directory J
  newIndex : Dict String String
  total : ℕ

/-- A shard is written if a tensor is left, and its tensors are entered in the index. -/
def pruneShard (plan : Plan) (snap : Directory J) (shards : Dict String (List String))
    (p : Progress J) (sh : String) : Option (Progress J) := do
  let (hdr, tensors) ← outTensors py plan snap shards sh
  if tensors.isEmpty then some p
  else
    let file ← writeSafetensors py.codec tensors (metadataOf hdr)
    some ⟨p.out.set sh (.bytes file),
      tensors.foldl (fun idx t => idx.set t.name sh) p.newIndex,
      p.total + totalBytes tensors⟩

/-- The files that are copied as they are. -/
def isOther (file : String) : Bool :=
  !(".safetensors".toList.isSuffixOf file.toList) && file != indexName && file != configName

/-- `shutil.copy` of the other files. -/
def copyOthers (snap out : Directory J) : Directory J :=
  snap.entries.foldl (fun out f => if isOther f.1 then out.set f.1 f.2 else out) out

/-- `build`, from the files of the snapshot and of the output directory. -/
def build (select : ℕ → ℕ → List ℕ) (snap out : Directory J) : Option (Directory J) :=
  match snap.get? indexName, snap.get? configName with
  | some (.index _ idx), some (.config config) => do
    let plan ← plan py.decimals select idx
    let shards := shardsOf idx
    let order := shards.keys.insertionSort (· ≤ ·)
    let p ← order.foldlM (pruneShard py plan snap shards) ⟨out, Dict.empty, 0⟩
    let out := p.out.set indexName (.index p.total p.newIndex)
    let out := out.set configName (.config
      ((config.set "num_experts" (py.number plan.count)).set "n_routed_experts"
        (py.number plan.count)))
    some (copyOthers snap out)
  | _, _ => none

end

/-! ### Layers and experts -/

/-- The numbers with `P` are below `count`, and the one just below it has `P`. -/
structure CountOf (P : ℕ → Prop) (count : ℕ) : Prop where
  below : ∀ e, P e → e < count
  last : ∃ e, P e ∧ e + 1 = count

theorem CountOf.unique {P : ℕ → Prop} {count count' : ℕ} (h : CountOf P count)
    (h' : CountOf P count') : count = count' := by
  obtain ⟨e, he, rfl⟩ := h.last
  obtain ⟨e', he', rfl⟩ := h'.last
  have := h.below e' he'
  have := h'.below e he
  omega

/-- The count of the numbers with `P`, if there are any. -/
def Counted (P : ℕ → Prop) : Option ℕ → Prop
  | none => ∀ e, ¬ P e
  | some count => CountOf P count

/-- One more number raises the count at most to what it asks for. -/
theorem Counted.insert {P : ℕ → Prop} {count : Option ℕ} (h : Counted P count) (e₀ : ℕ) :
    Counted (fun e => P e ∨ e₀ = e) (some (max (count.getD 0) (e₀ + 1))) := by
  cases count with
  | none =>
    refine ⟨?_, e₀, Or.inr rfl, by simp⟩
    rintro e (he | rfl)
    · exact absurd he (h e)
    · simp
  | some v =>
    obtain ⟨hbelow, e', he', hlast⟩ := h
    rw [Option.getD_some]
    refine ⟨?_, ?_⟩
    · rintro e (he | rfl)
      · exact lt_of_lt_of_le (hbelow e he) (le_max_left _ _)
      · exact lt_of_lt_of_le (Nat.lt_succ_self _) (le_max_right _ _)
    · rcases le_total v (e₀ + 1) with hle | hle
      · exact ⟨e₀, Or.inr rfl, (max_eq_right hle).symm⟩
      · exact ⟨e', Or.inl he', hlast.trans (max_eq_left hle).symm⟩

section
variable (dec : Decimals) (names : List String)

/-- One of the names is of expert `e` of layer `L`. -/
def ExpertOf (L e : ℕ) : Prop :=
  ∃ name ∈ names, ∃ m, expertMatch dec name = some m ∧ dec.int m.layer = L ∧
    dec.int m.expert = e

/-- The layer has experts. -/
def MoeLayer (L : ℕ) : Prop := ∃ e, ExpertOf dec names L e

variable {dec names}

theorem expertOf_append_of_none {name : String} (h : expertMatch dec name = none) (L : ℕ) :
    ExpertOf dec (names ++ [name]) L = ExpertOf dec names L := by
  funext e
  rw [eq_iff_iff]
  constructor
  · rintro ⟨nm, hnm, m, hm, hrest⟩
    rcases List.mem_append.mp hnm with hnm | hnm
    · exact ⟨nm, hnm, m, hm, hrest⟩
    · rw [List.mem_singleton.mp hnm, h] at hm
      cases hm
  · rintro ⟨nm, hnm, hrest⟩
    exact ⟨nm, List.mem_append_left _ hnm, hrest⟩

theorem expertOf_append_of_some {name : String} {m : ExpertGroups}
    (h : expertMatch dec name = some m) (L : ℕ) :
    ExpertOf dec (names ++ [name]) L = fun e =>
      ExpertOf dec names L e ∨ dec.int m.layer = L ∧ dec.int m.expert = e := by
  funext e
  rw [eq_iff_iff]
  constructor
  · rintro ⟨nm, hnm, m', hm, hrest⟩
    rcases List.mem_append.mp hnm with hnm | hnm
    · exact Or.inl ⟨nm, hnm, m', hm, hrest⟩
    · rw [List.mem_singleton.mp hnm, h] at hm
      obtain rfl := Option.some.inj hm
      exact Or.inr hrest
  · rintro (⟨nm, hnm, hrest⟩ | hlast)
    · exact ⟨nm, List.mem_append_left _ hnm, hrest⟩
    · exact ⟨name, by simp, m, h, hlast⟩

/-- The loop of `expert_counts`, name by name. -/
theorem expertCounts_append (name : String) :
    expertCounts dec (names ++ [name]) =
      match expertMatch dec name with
      | some m => (expertCounts dec names).set (dec.int m.layer)
          (max (((expertCounts dec names).get? (dec.int m.layer)).getD 0)
            (dec.int m.expert + 1))
      | none => expertCounts dec names := by
  rw [expertCounts, List.foldl_append]
  rfl

/-- **`expert_counts` counts.** -/
theorem counted_expertCounts (dec : Decimals) (names : List String) (L : ℕ) :
    Counted (ExpertOf dec names L) ((expertCounts dec names).get? L) := by
  induction names using List.reverseRecOn with
  | nil =>
    rintro e ⟨nm, hnm, -⟩
    cases hnm
  | append_singleton names name ih =>
    rw [expertCounts_append]
    cases hm : expertMatch dec name with
    | none => rwa [expertOf_append_of_none hm]
    | some m =>
      dsimp only
      rw [Dict.get?_set, expertOf_append_of_some hm]
      by_cases hL : L = dec.int m.layer
      · subst hL
        rw [if_pos rfl]
        simpa only [true_and] using ih.insert (dec.int m.expert)
      · rw [if_neg hL]
        simpa only [Ne.symm hL, false_and, or_false] using ih

theorem get?_expertCounts {L count : ℕ} (h : (expertCounts dec names).get? L = some count) :
    CountOf (ExpertOf dec names L) count := by
  have hcounted := counted_expertCounts dec names L
  rwa [h] at hcounted

/-- The layers that are counted are the ones that have experts. -/
theorem mem_keys_expertCounts {L : ℕ} :
    L ∈ (expertCounts dec names).keys ↔ MoeLayer dec names L := by
  rw [Dict.mem_keys_iff]
  constructor
  · rintro ⟨count, hcount⟩
    exact (get?_expertCounts hcount).last.imp fun e he => he.1
  · rintro ⟨e, he⟩
    have hcounted := counted_expertCounts dec names L
    cases hc : (expertCounts dec names).get? L with
    | none =>
      rw [hc] at hcounted
      exact absurd he (hcounted e)
    | some count => exact ⟨count, rfl⟩

end

/-! ### The plan -/

section
variable {dec : Decimals} {select : ℕ → ℕ → List ℕ} {idx : Dict String String}

/-- The keep lists of a plan are the ones of the MoE layers, and the new numbers are the
places in them. -/
structure Plan.Keeps (dec : Decimals) (names : List String) (kept : ℕ → List ℕ) (n : ℕ)
    (p : Plan) : Prop where
  keep : ∀ L l, p.keep.get? L = some l ↔ MoeLayer dec names L ∧ l = kept L
  old2new : ∀ L table, p.old2new.get? L = some table ↔
    MoeLayer dec names L ∧ table = Dict.ofPairs (kept L).zipIdx
  count : p.count = n

/-- A dictionary over a list of keys. -/
theorem get?_ofPairs_map {ν : Type} {keys : List ℕ} (hnodup : keys.Nodup) (f : ℕ → ν) (k : ℕ)
    (v : ν) : (Dict.ofPairs (keys.map fun k => (k, f k))).get? k = some v ↔
      k ∈ keys ∧ v = f k := by
  have hfst : (keys.map fun k => (k, f k)).map Prod.fst = keys := by
    rw [List.map_map]
    exact List.map_id keys
  rw [Dict.get?_ofPairs (by rwa [hfst]), List.mem_map]
  constructor
  · rintro ⟨k', hk', heq⟩
    obtain ⟨rfl, rfl⟩ := Prod.mk.inj heq
    exact ⟨hk', rfl⟩
  · rintro ⟨hk, rfl⟩
    exact ⟨k, hk, rfl⟩

/-- **The plan of a model with MoE layers** that have one count and keep lists of one
length. -/
theorem exists_plan {e0 n : ℕ} (hmoe : ∃ L, MoeLayer dec idx.keys L)
    (hcount : ∀ L, MoeLayer dec idx.keys L → CountOf (ExpertOf dec idx.keys L) e0)
    (hlength : ∀ L, MoeLayer dec idx.keys L → (select e0 L).length = n) :
    ∃ p, plan dec select idx = some p ∧ p.Keeps dec idx.keys (select e0) n := by
  have hperm := List.perm_insertionSort (· ≤ ·) (expertCounts dec idx.keys).keys
  have hnodup : ((expertCounts dec idx.keys).keys.insertionSort (· ≤ ·)).Nodup :=
    hperm.nodup_iff.mpr (expertCounts dec idx.keys).nodup
  have hmem : ∀ L, L ∈ (expertCounts dec idx.keys).keys.insertionSort (· ≤ ·) ↔
      MoeLayer dec idx.keys L := fun L => hperm.mem_iff.trans mem_keys_expertCounts
  have hvalue : ∀ L count, (expertCounts dec idx.keys).get? L = some count → count = e0 :=
    fun L count h => (get?_expertCounts h).unique
      (hcount L (mem_keys_expertCounts.mp (Dict.mem_keys_iff.mpr ⟨count, h⟩)))
  generalize hmoeList : (expertCounts dec idx.keys).keys.insertionSort (· ≤ ·) = moe
    at hnodup hmem
  have hkeep := get?_ofPairs_map hnodup (select e0)
  -- the first MoE layer, and what is known of it
  obtain ⟨L₀, hL₀⟩ := hmoe
  obtain ⟨first, rest, hcons⟩ := List.exists_cons_of_ne_nil
    (List.ne_nil_of_mem ((hmem L₀).mpr hL₀))
  have hfirst : first ∈ moe := hcons ▸ List.mem_cons_self
  obtain ⟨count, hfirstCount⟩ := Dict.mem_keys_iff.mp
    (mem_keys_expertCounts.mpr ((hmem first).mp hfirst))
  obtain rfl := hvalue first count hfirstCount
  have hfirstKeep := (hkeep first _).mpr ⟨hfirst, rfl⟩
  have hall : (expertCounts dec idx.keys).entries.all (fun e => e.2 = count) = true := by
    rw [List.all_eq_true]
    exact fun e he => decide_eq_true (hvalue e.1 e.2 (Dict.get?_eq_some.mpr he))
  have hlengths : (Dict.ofPairs (moe.map fun L => (L, select count L))).entries.all
      (fun e => e.2.length = (select count first).length) = true := by
    rw [List.all_eq_true]
    intro e he
    obtain ⟨hL, hl⟩ := (hkeep e.1 e.2).mp (Dict.get?_eq_some.mpr he)
    rw [decide_eq_true_eq, hl, hlength e.1 ((hmem e.1).mp hL),
      hlength first ((hmem first).mp hfirst)]
  have hentries : (Dict.ofPairs (moe.map fun L => (L, select count L))).entries =
      moe.map fun L => (L, select count L) :=
    Dict.entries_ofPairs (by rw [List.map_map]; exact (List.map_id moe).symm ▸ hnodup)
  refine ⟨⟨Dict.ofPairs (moe.map fun L => (L, select count L)),
    Dict.ofPairs (moe.map fun L => (L, Dict.ofPairs (select count L).zipIdx)),
    (select count first).length⟩, ?_, ⟨?_, ?_, hlength first ((hmem first).mp hfirst)⟩⟩
  · simp only [plan, hmoeList, hcons, List.head?_cons, Option.bind_eq_bind, Option.bind_some,
      hfirstCount, hall, if_true]
    rw [← hcons, hfirstKeep]
    simp only [Option.bind_some, hlengths, if_true]
    rw [hentries, List.map_map]
    rfl
  · exact fun L l => (hkeep L l).trans (and_congr_left fun _ => hmem L)
  · exact fun L table => (get?_ofPairs_map hnodup _ L table).trans
      (and_congr_left fun _ => hmem L)

end

/-! ### Rows -/

/-- The tensor `t'` has the rows `keep` of `t`, a tensor of `rows` rows, in that order. -/
structure Sliced (keep : List ℕ) (rows : ℕ) (t t' : TensorRecord) : Prop where
  name : t'.name = t.name
  dtype : t'.dtype = t.dtype
  shape : t'.shape = keep.length :: t.shape.tail
  length : t'.bytes.length = keep.length * (t.bytes.length / rows)
  row : ∀ j i, keep[j]? = some i →
    row (t.bytes.length / rows) t'.bytes j = row (t.bytes.length / rows) t.bytes i

theorem row_succ (rb : ℕ) (buf : List UInt8) (j : ℕ) :
    row rb buf (j + 1) = row rb (buf.drop rb) j := by
  rw [row, row, List.drop_drop, Nat.add_mul, Nat.one_mul, Nat.add_comm rb]

theorem length_row {rb rows i : ℕ} {buf : List UInt8} (hbuf : rb * rows = buf.length)
    (hi : i < rows) : (row rb buf i).length = rb := by
  have hle : (i + 1) * rb ≤ rows * rb := Nat.mul_le_mul_right rb hi
  rw [Nat.add_mul, Nat.one_mul, Nat.mul_comm rows, hbuf] at hle
  rw [row, List.length_take, List.length_drop]
  omega

/-- Rows joined are the rows. -/
theorem row_flatMap {rb : ℕ} {f : ℕ → List UInt8} {keep : List ℕ}
    (hf : ∀ i ∈ keep, (f i).length = rb) {j i : ℕ} (hj : keep[j]? = some i) :
    row rb (keep.flatMap f) j = f i := by
  induction keep generalizing j with
  | nil => simp at hj
  | cons i' keep ih =>
    have hfirst : (f i').length = rb := hf i' List.mem_cons_self
    cases j with
    | zero =>
      obtain rfl : i' = i := by simpa using hj
      rw [row, Nat.zero_mul, List.drop_zero, List.flatMap_cons, ← hfirst, List.take_left]
    | succ j =>
      have hrest : (f i' ++ keep.flatMap f).drop rb = keep.flatMap f := by
        rw [← hfirst, List.drop_left]
      rw [row_succ, List.flatMap_cons, hrest]
      exact ih (fun i hi => hf i (List.mem_cons_of_mem i' hi)) (by simpa using hj)

theorem length_flatMap_rows {rb : ℕ} {f : ℕ → List UInt8} {keep : List ℕ}
    (hf : ∀ i ∈ keep, (f i).length = rb) : (keep.flatMap f).length = keep.length * rb := by
  induction keep with
  | nil => simp
  | cons i keep ih =>
    rw [List.flatMap_cons, List.length_append, hf i List.mem_cons_self,
      ih (fun i' hi' => hf i' (List.mem_cons_of_mem i hi')), List.length_cons, Nat.add_mul,
      Nat.one_mul, Nat.add_comm]

/-- Rows determine the bytes. -/
theorem eq_of_rows {rb n : ℕ} {a b : List UInt8} (ha : a.length = n * rb)
    (hb : b.length = n * rb) (h : ∀ j < n, row rb a j = row rb b j) : a = b := by
  induction n generalizing a b with
  | zero =>
    rw [Nat.zero_mul] at ha hb
    rw [List.length_eq_zero_iff.mp ha, List.length_eq_zero_iff.mp hb]
  | succ n ih =>
    have hfirst : a.take rb = b.take rb := by
      have := h 0 (Nat.succ_pos n)
      rwa [row, row, Nat.zero_mul, List.drop_zero, List.drop_zero] at this
    have hrest : a.drop rb = b.drop rb := by
      refine ih ?_ ?_ fun j hj => ?_
      · rw [List.length_drop, ha, Nat.add_mul, Nat.one_mul, Nat.add_sub_cancel]
      · rw [List.length_drop, hb, Nat.add_mul, Nat.one_mul, Nat.add_sub_cancel]
      · rw [← row_succ, ← row_succ]
        exact h (j + 1) (Nat.succ_lt_succ hj)
    rw [← List.take_append_drop rb a, ← List.take_append_drop rb b, hfirst, hrest]

/-- Two tensors with the same rows of a tensor are the same. -/
theorem Sliced.unique {keep : List ℕ} {rows : ℕ} {t t₁ t₂ : TensorRecord}
    (h₁ : Sliced keep rows t t₁) (h₂ : Sliced keep rows t t₂) : t₁ = t₂ := by
  have hbytes : t₁.bytes = t₂.bytes := by
    refine eq_of_rows h₁.length h₂.length fun j hj => ?_
    have hj' : keep[j]? = some keep[j] := List.getElem?_eq_getElem hj
    rw [h₁.row j _ hj', h₂.row j _ hj']
  obtain ⟨name₁, dtype₁, shape₁, bytes₁⟩ := t₁
  obtain ⟨name₂, dtype₂, shape₂, bytes₂⟩ := t₂
  obtain rfl : name₁ = name₂ := h₁.name.trans h₂.name.symm
  obtain rfl : dtype₁ = dtype₂ := h₁.dtype.trans h₂.dtype.symm
  obtain rfl : shape₁ = shape₂ := h₁.shape.trans h₂.shape.symm
  rw [TensorRecord.mk.injEq]
  exact ⟨rfl, rfl, rfl, hbytes⟩

/-- **`row_slice` slices rows.** -/
theorem exists_rowSlice {keep : List ℕ} {rows : ℕ} {t : TensorRecord} (hrows : 0 < rows)
    (hshape : t.shape.head? = some rows) (hdvd : rows ∣ t.bytes.length)
    (hkeep : ∀ i ∈ keep, i < rows) :
    ∃ buf shape, rowSlice t.bytes t.shape keep = some (buf, shape) ∧
      Sliced keep rows t { t with shape := shape, bytes := buf } := by
  obtain ⟨name, dtype, shape, bytes⟩ := t
  dsimp only at hshape hdvd ⊢
  obtain ⟨dims, rfl⟩ := List.head?_eq_some_iff.mp hshape
  have heven : bytes.length / rows * rows = bytes.length := Nat.div_mul_cancel hdvd
  have hlength : ∀ i ∈ keep, (row (bytes.length / rows) bytes i).length = bytes.length / rows :=
    fun i hi => length_row heven (hkeep i hi)
  exact ⟨_, _, if_pos ⟨hrows.ne', heven⟩, rfl, rfl, rfl, length_flatMap_rows hlength,
    fun j i hj => row_flatMap hlength hj⟩

/-! ### What becomes of a tensor -/

/-- The tensor under the name an index gives it, in its shard. -/
def HasTensor {J : Type} (codec : HeaderCodec J) (dir : Directory J) (idx : Dict String String)
    (sh : String) (t : TensorRecord) : Prop :=
  idx.get? t.name = some sh ∧ ∃ file, dir.get? sh = some (.bytes file) ∧
    readTensorBytes codec file t.name = some (t.bytes, t.dtype, t.shape)

/-- What becomes of a tensor of a model with `e0` experts a layer when layer `L` keeps
`kept L`: a tensor of a kept expert gets the expert's place in the list, a router's tensor
the kept rows, and a tensor that is neither an expert's nor a MoE router's stays. -/
inductive Becomes (dec : Decimals) (names : List String) (e0 : ℕ) (kept : ℕ → List ℕ)
    (t : TensorRecord) : TensorRecord → Prop
  | renamed {m : ExpertGroups} {j : ℕ} (hexpert : expertMatch dec t.name = some m)
      (hj : (kept (dec.int m.layer))[j]? = some (dec.int m.expert)) :
      Becomes dec names e0 kept t { t with name := expertName (dec.int m.layer) j m.suffix }
  | sliced {layer : List Char} {t' : TensorRecord} (hrouter : router dec t.name = some layer)
      (hmoe : MoeLayer dec names (dec.int layer))
      (hsliced : Sliced (kept (dec.int layer)) e0 t t') : Becomes dec names e0 kept t t'
  | stays (hexpert : expertMatch dec t.name = none)
      (hrouter : ∀ layer, router dec t.name = some layer → ¬ MoeLayer dec names (dec.int layer)) :
      Becomes dec names e0 kept t t

section
variable {dec : Decimals} {names : List String} {e0 : ℕ} {kept : ℕ → List ℕ}
  {t t' : TensorRecord}

/-- What becomes of an expert's tensor. -/
theorem becomes_iff_of_expert {m : ExpertGroups} (hm : expertMatch dec t.name = some m) :
    Becomes dec names e0 kept t t' ↔
      ∃ j, (kept (dec.int m.layer))[j]? = some (dec.int m.expert) ∧
        t' = { t with name := expertName (dec.int m.layer) j m.suffix } := by
  constructor
  · rintro (⟨hexpert, hj⟩ | ⟨hrouter, -, -⟩ | ⟨hexpert, -⟩)
    · obtain rfl := Option.some.inj (hm.symm.trans hexpert)
      exact ⟨_, hj, rfl⟩
    · exact (not_router_of_expert hm hrouter).elim
    · rw [hexpert] at hm
      cases hm
  · rintro ⟨j, hj, rfl⟩
    exact .renamed hm hj

/-- What becomes of a MoE router's tensor. -/
theorem becomes_iff_of_router {layer : List Char} (hr : router dec t.name = some layer)
    (hmoe : MoeLayer dec names (dec.int layer)) :
    Becomes dec names e0 kept t t' ↔ Sliced (kept (dec.int layer)) e0 t t' := by
  constructor
  · rintro (⟨hexpert, -⟩ | ⟨hrouter, -, hsliced⟩ | ⟨-, hrouter⟩)
    · exact (not_router_of_expert hexpert hr).elim
    · obtain rfl := Option.some.inj (hr.symm.trans hrouter)
      exact hsliced
    · exact absurd hmoe (hrouter layer hr)
  · exact fun hsliced => .sliced hr hmoe hsliced

/-- What becomes of any other tensor. -/
theorem becomes_iff_of_other (hm : expertMatch dec t.name = none)
    (hr : ∀ layer, router dec t.name = some layer → ¬ MoeLayer dec names (dec.int layer)) :
    Becomes dec names e0 kept t t' ↔ t' = t := by
  constructor
  · rintro (⟨hexpert, -⟩ | ⟨hrouter, hmoe, -⟩ | -)
    · rw [hm] at hexpert
      cases hexpert
    · exact absurd hmoe (hr _ hrouter)
    · rfl
  · rintro rfl
    exact .stays hm hr

end

/-- A keep list: `n` distinct experts of `e0`. -/
structure KeepList (e0 n : ℕ) (keep : List ℕ) : Prop where
  length : keep.length = n
  nodup : keep.Nodup
  below : ∀ e ∈ keep, e < e0

/-- Dropping the same experts in every layer keeps equally many in every layer. -/
theorem keepList_fixedDropKeeplist (drop : List ℕ) (e0 L : ℕ) :
    KeepList e0 ((List.range e0).countP fun e => e ∉ drop) (fixedDropKeeplist drop e0 L) where
  length := List.countP_eq_length_filter.symm
  nodup := List.nodup_range.filter _
  below _ he := List.mem_range.mp (List.mem_of_mem_filter he)

section
variable {J : Type}

theorem readTensorBytes_eq_some {codec : HeaderCodec J} {file : List UInt8} {hdr : Header J}
    {ds : ℕ} (hhdr : parseHeader codec file = some (hdr, ds)) (t : TensorRecord) :
    readTensorBytes codec file t.name = some (t.bytes, t.dtype, t.shape) ↔
      loadTensor hdr ds file t.name = some t := by
  obtain ⟨name, dtype, shape, bytes⟩ := t
  simp only [readTensorBytes, loadTensor, hhdr, Option.bind_eq_bind, Option.bind_some]
  cases hdr.get? name with
  | none => simp
  | some entry =>
    cases entry with
    | metadata m => simp
    | tensor info =>
      dsimp only
      rw [Option.bind_eq_some_iff, Option.map_eq_some_iff]
      simp only [Option.some.injEq, Prod.mk.injEq, TensorRecord.mk.injEq, true_and]
      exact exists_congr fun buf => by tauto

variable {dec : Decimals} {names : List String} {e0 n : ℕ} {kept : ℕ → List ℕ} {p : Plan}

/-- The place of an expert in a list of distinct experts. -/
theorem get?_zipIdx {l : List ℕ} (hnodup : l.Nodup) (e j : ℕ) :
    (Dict.ofPairs l.zipIdx).get? e = some j ↔ l[j]? = some e := by
  rw [Dict.get?_ofPairs (by rwa [List.zipIdx_map_fst]), List.mem_zipIdx_iff_getElem?]

/-- **One tensor.** A tensor of the model that is in the header is written as what becomes
of it, if anything does. -/
theorem exists_pruneTensor (hplan : p.Keeps dec names kept n)
    (hcount : ∀ L, MoeLayer dec names L → CountOf (ExpertOf dec names L) e0)
    (hkept : ∀ L, MoeLayer dec names L → KeepList e0 n (kept L))
    {hdr : Header J} {ds : ℕ} {file : List UInt8} {t : TensorRecord} (hname : t.name ∈ names)
    (hload : loadTensor hdr ds file t.name = some t)
    (hrouter : ∀ layer, router dec t.name = some layer → MoeLayer dec names (dec.int layer) →
      t.shape.head? = some e0 ∧ e0 ∣ t.bytes.length) :
    ∃ r, pruneTensor dec p hdr ds file t.name = some r ∧
      ∀ t', r = some t' ↔ Becomes dec names e0 kept t t' := by
  cases hm : expertMatch dec t.name with
  | some m =>
    -- an expert's tensor is looked up in the new numbers of its layer
    have hmoe : MoeLayer dec names (dec.int m.layer) := ⟨_, t.name, hname, m, hm, rfl, rfl⟩
    have hnodup := (hkept _ hmoe).nodup
    have htable := (hplan.old2new (dec.int m.layer) _).mpr ⟨hmoe, rfl⟩
    cases hj : (Dict.ofPairs (kept (dec.int m.layer)).zipIdx).get? (dec.int m.expert) with
    | some j =>
      refine ⟨some { t with name := expertName (dec.int m.layer) j m.suffix }, ?_, fun t' => ?_⟩
      · simp [pruneTensor, fate, hm, htable, hj, hload]
      · rw [becomes_iff_of_expert hm, Option.some.injEq]
        constructor
        · rintro rfl
          exact ⟨j, (get?_zipIdx hnodup _ j).mp hj, rfl⟩
        · rintro ⟨j', hj', rfl⟩
          rw [← get?_zipIdx hnodup, hj] at hj'
          rw [Option.some.inj hj']
    | none =>
      refine ⟨none, ?_, fun t' => ?_⟩
      · simp [pruneTensor, fate, hm, htable, hj]
      · rw [becomes_iff_of_expert hm]
        refine iff_of_false (by simp) ?_
        rintro ⟨j, hj', -⟩
        rw [← get?_zipIdx hnodup, hj] at hj'
        cases hj'
  | none =>
    -- no expert's: sliced for a router of a MoE layer, copied otherwise
    cases hr : router dec t.name with
    | none =>
      refine ⟨some t, ?_, fun t' => ?_⟩
      · simp [pruneTensor, fate, hm, hr, hload]
      · rw [becomes_iff_of_other hm (by simp [hr]), Option.some.injEq, eq_comm]
    | some layer =>
      by_cases hmoe : MoeLayer dec names (dec.int layer)
      · have hkeep := (hplan.keep (dec.int layer) _).mpr ⟨hmoe, rfl⟩
        have hmem : dec.int layer ∈ p.keep.keys := Dict.mem_keys_iff.mpr ⟨_, hkeep⟩
        obtain ⟨hshape, hdvd⟩ := hrouter layer hr hmoe
        obtain ⟨e, -, he⟩ := (hcount _ hmoe).last
        obtain ⟨buf, shape, hslice, hsliced⟩ := exists_rowSlice (by omega) hshape hdvd
          (hkept _ hmoe).below
        refine ⟨some { t with shape := shape, bytes := buf }, ?_, fun t' => ?_⟩
        · simp [pruneTensor, fate, hm, hr, hload, hmem, layerMatch_of_router hr, hkeep, hslice]
        · rw [becomes_iff_of_router hr hmoe, Option.some.injEq]
          constructor
          · rintro rfl
            exact hsliced
          · exact fun h => hsliced.unique h
      · have hmem : dec.int layer ∉ p.keep.keys := by
          rw [Dict.mem_keys_iff]
          rintro ⟨l, hl⟩
          exact hmoe ((hplan.keep _ _).mp hl).1
        have hother : ∀ layer', router dec t.name = some layer' →
            ¬ MoeLayer dec names (dec.int layer') := by
          intro layer' hr'
          obtain rfl := Option.some.inj (hr.symm.trans hr')
          exact hmoe
        refine ⟨some t, ?_, fun t' => ?_⟩
        · simp [pruneTensor, fate, hm, hr, hload, hmem]
        · rw [becomes_iff_of_other hm hother, Option.some.injEq, eq_comm]

end

end Glm52.ExpertPrune
