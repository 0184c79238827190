import Glm52.Validate

/-! # Built models pass the check

What `build` writes of a complete model is what `validate` accepts.  A written shard is
packed (`written_accepted`); the layers of the new index are the layers of the old one,
each with the experts below `n` (`BuildRun.expertOf_iff`) of twelve tensors each
(`BuildRun.length_experts`); and the running sum of the lengths is the sum over the new
index (`BuildRun.total_eq`). -/
namespace Glm52.ExpertPrune
open TensorNames

/-! ### Written shards -/

theorem contiguous_mem {spans : List (ℕ × ℕ)} {start stop : ℕ} (h : Contiguous start spans stop) :
    ∀ span ∈ spans, start ≤ span.1 ∧ span.1 ≤ span.2 := by
  induction spans generalizing start with
  | nil => exact fun _ h => absurd h List.not_mem_nil
  | cons a rest ih =>
    obtain ⟨hstart, hle, hrest⟩ := h
    intro span hspan
    rcases List.mem_cons.mp hspan with rfl | hspan
    · exact ⟨hstart.ge, hle⟩
    · have hbehind := ih hrest span hspan
      omega

/-- Spans one behind the other are packed; those without bytes stand before the next one,
which starts at the same place. -/
theorem packed_of_contiguous {spans : List (ℕ × ℕ)} {size : ℕ} (h : Contiguous 0 spans size)
    (hne : spans ≠ []) : Packed spans size := by
  have hall : ∀ {spans : List (ℕ × ℕ)} {start stop : ℕ}, Contiguous start spans stop →
      spans ≠ [] → spans.Pairwise spanLe ∧ (spans.IsChain fun a b => a.2 = b.1) ∧
        (∃ span, spans.head? = some span ∧ span.1 = start) ∧
        ∃ span, spans.getLast? = some span ∧ span.2 = stop := by
    intro spans
    induction spans with
    | nil => exact fun _ hne => absurd rfl hne
    | cons a rest ih =>
      rintro start stop ⟨hstart, hle, hrest⟩ -
      have hfirst : ∀ b ∈ rest, spanLe a b := by
        intro b hb
        have hbehind := contiguous_mem hrest b hb
        unfold spanLe
        omega
      cases rest with
      | nil => exact ⟨List.pairwise_singleton _ a, .singleton a, ⟨a, rfl, hstart⟩, a, rfl, hrest⟩
      | cons b rest =>
        obtain ⟨hsorted, hchain, ⟨b', hb, hnext⟩, hlast⟩ := ih hrest (List.cons_ne_nil b rest)
        obtain rfl := Option.some.inj hb
        exact ⟨List.pairwise_cons.mpr ⟨hfirst, hsorted⟩,
          List.isChain_cons_cons.mpr ⟨hnext.symm, hchain⟩, ⟨a, rfl, hstart⟩,
          by rwa [List.getLast?_cons_cons]⟩
  obtain ⟨hsorted, hchain, hfirst, hlast⟩ := hall h hne
  exact ⟨hsorted, hchain, hfirst, hlast⟩

theorem map_dataOffsets_entriesFrom {J : Type} (off : ℕ) (ts : List TensorRecord) :
    (entriesFrom J off ts).map (fun e => e.2.dataOffsets) = (spansFrom off ts).map some := by
  induction ts generalizing off with
  | nil => rfl
  | cons t ts ih =>
    rw [entriesFrom, List.map_cons, ih, spansFrom, List.map_cons]
    rfl

/-- The spans of a header that is built. -/
theorem headerSpans_buildHeader {J : Type} {ts : List TensorRecord}
    (hnames : (ts.map TensorRecord.name).Nodup) (hmeta : metadataKey ∉ ts.map TensorRecord.name)
    (metadata : Option (Dict String J)) :
    headerSpans (buildHeader ts metadata) = (spansFrom 0 ts).map some := by
  have hstart : (startHeader metadata).entries.filter (fun e => e.1 ≠ metadataKey) = [] := by
    refine List.filter_eq_nil_iff.mpr fun e he => ?_
    rw [decide_eq_true_eq, not_not]
    exact mem_keys_startHeader (List.mem_map_of_mem he)
  have htensors : (entriesFrom J 0 ts).filter (fun e => e.1 ≠ metadataKey) =
      entriesFrom J 0 ts := by
    refine List.filter_eq_self.mpr fun e he => ?_
    rw [decide_eq_true_eq]
    rintro hkey
    refine hmeta ?_
    rw [← map_fst_entriesFrom (V := J) 0, ← hkey]
    exact List.mem_map_of_mem he
  rw [headerSpans, entries_buildHeader hnames hmeta, List.filter_append, hstart, htensors,
    List.nil_append, map_dataOffsets_entriesFrom]

/-- **A written shard is accepted.** -/
theorem written_accepted {J : Type} {py : Python J} {out : Directory J} {sh : String}
    {ts : List TensorRecord} {metadata : Option (Dict String J)} {file : List UInt8}
    (hne : ts ≠ []) (hnames : (ts.map TensorRecord.name).Nodup)
    (hmeta : metadataKey ∉ ts.map TensorRecord.name)
    (hjson : py.codec.loads (py.codec.dumps (buildHeader ts metadata)) =
      some (buildHeader ts metadata))
    (hfile : writeSafetensors py.codec ts metadata = some file)
    (hget : out.get? sh = some (.bytes file)) : ShardAccepted py out sh := by
  have hcontiguous : Contiguous 0 (spansFrom 0 ts) (totalBytes ts) := by
    have hspans := contiguous_spansFrom 0 ts
    rwa [Nat.zero_add] at hspans
  have hspansNe : spansFrom 0 ts ≠ [] := by
    cases ts with
    | nil => exact absurd rfl hne
    | cons t ts => exact List.cons_ne_nil _ _
  refine ⟨file, _, _, spansFrom 0 ts, totalBytes ts, hget, parseHeader_written hjson hfile, ?_,
    packed_of_contiguous hcontiguous hspansNe, length_written hfile⟩
  rw [headerSpans_buildHeader hnames hmeta]

/-! ### Complete models -/

/-- The names of routers' weights are matched as such. -/
theorem router_gateName (dec : Decimals) (L : ℕ) :
    router dec (gateName L) = some (Nat.toDigits 10 L) := by
  have hname : (gateName L).toList = "model.layers.".toList ++ (Nat.toDigits 10 L ++
      (".mlp.gate.weight".toList ++ [])) := by
    simp only [gateName, String.toList_append, Nat.toString_eq_ofList_toDigits,
      String.toList_ofList, List.append_assoc, List.append_nil]
  have hlit : ".mlp.gate.weight".toList = '.' :: "mlp.gate.weight".toList := rfl
  have hlayer := digits_toDigits dec L ("mlp.gate.weight".toList ++ [])
  rw [← List.cons_append, ← hlit] at hlayer
  have hend : AtEnd [] := Or.inl rfl
  have hgate : gateMatch dec (gateName L) = some (Nat.toDigits 10 L) := by
    simp only [gateMatch, routerMatch, hname, behind_append, hlayer, Option.bind_eq_bind,
      Option.bind_some, if_pos hend]
  rw [router, hgate, Option.some_or]

/-- A model whose experts are complete: twelve tensors of each of the `e0` experts of a MoE
layer, and a router's weight. -/
structure Complete (dec : Decimals) (names : List String) (e0 : ℕ) : Prop where
  tensors : ∀ L, MoeLayer dec names L → ∀ e < e0,
    names.countP (fun nm => expertIn dec L nm = some e) = 12
  router : ∀ L, MoeLayer dec names L → gateName L ∈ names

theorem Complete.expertOf {dec : Decimals} {names : List String} {e0 L e : ℕ}
    (h : Complete dec names e0) (hL : MoeLayer dec names L) (he : e < e0) :
    ExpertOf dec names L e := by
  have hpos : 0 < names.countP fun nm => expertIn dec L nm = some e := by
    rw [h.tensors L hL e he]
    decide
  obtain ⟨nm, hnm, hexpert⟩ := List.countP_pos_iff.mp hpos
  exact mem_experts.mp (List.mem_filterMap.mpr ⟨nm, hnm, of_decide_eq_true hexpert⟩)

/-- The name of a tensor of an expert that becomes expert `j` of layer `L`. -/
def renumber (dec : Decimals) (L j : ℕ) (nm : String) : String :=
  match expertMatch dec nm with
  | some m => expertName L j m.suffix
  | none => nm

theorem renumber_of_match {dec : Decimals} {L j : ℕ} {nm : String} {m : ExpertGroups}
    (hm : expertMatch dec nm = some m) : renumber dec L j nm = expertName L j m.suffix := by
  rw [renumber, hm]

/-- The names of one expert's tensors stay apart. -/
theorem Setting.renumber_inj {J : Type} {py : Python J} {snap : Directory J}
    {idx : Dict String String} {e0 n : ℕ} {kept : ℕ → List ℕ} {p : Plan}
    (h : Setting py snap idx e0 n kept p) {L e j : ℕ} {nm₁ nm₂ : String} (hkey₁ : nm₁ ∈ idx.keys)
    (hkey₂ : nm₂ ∈ idx.keys) (h₁ : expertIn py.decimals L nm₁ = some e)
    (h₂ : expertIn py.decimals L nm₂ = some e)
    (heq : renumber py.decimals L j nm₁ = renumber py.decimals L j nm₂) : nm₁ = nm₂ := by
  obtain ⟨m₁, hm₁, hL₁, he₁⟩ := expertIn_eq_some.mp h₁
  obtain ⟨m₂, hm₂, hL₂, he₂⟩ := expertIn_eq_some.mp h₂
  obtain ⟨hne₁, hline₁, -⟩ := expertMatch_eq_some hm₁
  obtain ⟨hne₂, hline₂, -⟩ := expertMatch_eq_some hm₂
  rw [renumber_of_match hm₁, renumber_of_match hm₂] at heq
  obtain ⟨-, -, hsuffix⟩ := expertName_inj hne₁ hline₁ hne₂ hline₂ heq
  rw [h.oneLine.eq_expertName h.snapshot.canonical hkey₁ hm₁,
    h.oneLine.eq_expertName h.snapshot.canonical hkey₂ hm₂, hL₁, hL₂, he₁, he₂, hsuffix]

/-! ### The new layers -/

section
variable {J : Type} {py : Python J} {snap out out' : Directory J} {idx : Dict String String}
  {e0 n : ℕ} {kept : ℕ → List ℕ} {p : Plan} {order : List String} {after : Progress J}
  (h : BuildRun py snap out out' idx e0 n kept p order after)
include h

theorem BuildRun.get?_newIndex (nm sh : String) :
    after.newIndex.get? nm = some sh ↔ ∃ t t', HasTensor py.codec snap idx sh t ∧
      Becomes py.decimals idx.keys e0 kept t t' ∧ t'.name = nm :=
  h.setting.get?_newIndex h.nodup h.shards h.ran rfl nm sh

/-- An expert's new name is a kept expert's old one, renumbered. -/
theorem BuildRun.mem_keys_expert {L j : ℕ} {nm : String} :
    nm ∈ after.newIndex.keys ∧ expertIn py.decimals L nm = some j ↔
      ∃ e nm₀ m, (kept L)[j]? = some e ∧ nm₀ ∈ idx.keys ∧
        expertMatch py.decimals nm₀ = some m ∧ py.decimals.int m.layer = L ∧
        py.decimals.int m.expert = e ∧ nm = expertName L j m.suffix := by
  constructor
  · rintro ⟨hnm, hexpert⟩
    obtain ⟨sh, hsh⟩ := Dict.mem_keys_iff.mp hnm
    obtain ⟨t, t', ht, hbecomes, rfl⟩ := (h.get?_newIndex nm sh).mp hsh
    obtain ⟨m', hm', rfl, rfl⟩ := expertIn_eq_some.mp hexpert
    rcases hbecomes.name_eq with ⟨m, i, hm, hi, hname⟩ | ⟨hm, hname⟩
    · obtain ⟨hne, hline, -⟩ := expertMatch_eq_some hm
      rw [hname, expertMatch_expertName _ _ hne hline] at hm'
      obtain rfl := Option.some.inj hm'
      simp only [int_toDigits] at hi ⊢
      exact ⟨_, t.name, m, hi, ht.mem_keys, hm, rfl, rfl, hname⟩
    · rw [hname, hm] at hm'
      cases hm'
  · rintro ⟨e, nm₀, m, hj, hnm₀, hm, rfl, rfl, rfl⟩
    obtain ⟨sh, hsh⟩ := Dict.mem_keys_iff.mp hnm₀
    obtain ⟨t, rfl, ht⟩ := h.setting.snapshot.tensor nm₀ sh hsh
    obtain ⟨hne, hline, -⟩ := expertMatch_eq_some hm
    have hnew := (h.get?_newIndex _ sh).mpr ⟨t, _, ht, .renamed hm hj, rfl⟩
    exact ⟨Dict.mem_keys_iff.mpr ⟨sh, hnew⟩, expertIn_eq_some.mpr
      ⟨_, expertMatch_expertName _ j hne hline, int_toDigits _ _, int_toDigits _ j⟩⟩

variable (hcomplete : Complete py.decimals idx.keys e0)
include hcomplete

/-- **The experts of a new layer** are the numbers below `n`. -/
theorem BuildRun.expertOf_iff (L j : ℕ) :
    ExpertOf py.decimals after.newIndex.keys L j ↔ MoeLayer py.decimals idx.keys L ∧ j < n := by
  rw [← mem_experts, List.mem_filterMap]
  simp only [h.mem_keys_expert]
  constructor
  · rintro ⟨nm, e, nm₀, m, hj, hnm₀, hm, hL, he, -⟩
    have hmoe : MoeLayer py.decimals idx.keys L := ⟨e, nm₀, hnm₀, m, hm, hL, he⟩
    have hlt := (List.getElem?_eq_some_iff.mp hj).1
    exact ⟨hmoe, by rwa [(h.setting.lists L hmoe).length] at hlt⟩
  · rintro ⟨hmoe, hj⟩
    have hkeep := h.setting.lists L hmoe
    have hlt : j < (kept L).length := by rwa [hkeep.length]
    have hget := List.getElem?_eq_getElem hlt
    obtain ⟨nm₀, hnm₀, m, hm, hL, he⟩ :=
      hcomplete.expertOf hmoe (hkeep.below _ (List.getElem_mem hlt))
    exact ⟨_, _, nm₀, m, hget, hnm₀, hm, hL, he, rfl⟩

/-- A new layer has twelve tensors of each of its experts. -/
theorem BuildRun.countP_expert {L j : ℕ} (hmoe : MoeLayer py.decimals idx.keys L) (hj : j < n) :
    after.newIndex.keys.countP (fun nm => expertIn py.decimals L nm = some j) = 12 := by
  have hkeep := h.setting.lists L hmoe
  have hlt : j < (kept L).length := by rwa [hkeep.length]
  have hget := List.getElem?_eq_getElem hlt
  have hnew : after.newIndex.keys.Nodup := after.newIndex.nodup
  have hold : idx.keys.Nodup := idx.nodup
  -- renumbering is a bijection from the old names of the expert to the new ones
  have hperm : (after.newIndex.keys.filter fun nm => expertIn py.decimals L nm = some j).Perm
      ((idx.keys.filter fun nm => expertIn py.decimals L nm = some (kept L)[j]).map
        (renumber py.decimals L j)) := by
    refine (List.perm_ext_iff_of_nodup (hnew.filter _) ?_).mpr fun nm => ?_
    · refine List.Nodup.map_on (fun nm₁ h₁ nm₂ h₂ heq => ?_) (hold.filter _)
      obtain ⟨hkey₁, hexpert₁⟩ := List.mem_filter.mp h₁
      obtain ⟨hkey₂, hexpert₂⟩ := List.mem_filter.mp h₂
      exact h.setting.renumber_inj hkey₁ hkey₂ (of_decide_eq_true hexpert₁)
        (of_decide_eq_true hexpert₂) heq
    · rw [List.mem_filter, decide_eq_true_eq, h.mem_keys_expert, List.mem_map]
      constructor
      · rintro ⟨e, nm₀, m, he, hnm₀, hm, hL, hexpert, rfl⟩
        obtain rfl := Option.some.inj (hget.symm.trans he)
        exact ⟨nm₀, List.mem_filter.mpr ⟨hnm₀, decide_eq_true
          (expertIn_eq_some.mpr ⟨m, hm, hL, hexpert⟩)⟩, renumber_of_match hm⟩
      · rintro ⟨nm₀, hnm₀, rfl⟩
        obtain ⟨hkey, hexpert⟩ := List.mem_filter.mp hnm₀
        obtain ⟨m, hm, hL, he⟩ := expertIn_eq_some.mp (of_decide_eq_true hexpert)
        exact ⟨_, nm₀, m, hget, hkey, hm, hL, he, renumber_of_match hm⟩
  rw [List.countP_eq_length_filter, hperm.length_eq, List.length_map,
    ← List.countP_eq_length_filter]
  exact hcomplete.tensors L hmoe _ (hkeep.below _ (List.getElem_mem hlt))

/-- **The new names of experts' tensors**, twelve times the number of experts. -/
theorem BuildRun.length_experts {L : ℕ} (hmoe : MoeLayer py.decimals idx.keys L) :
    (after.newIndex.keys.filterMap (expertIn py.decimals L)).length = n * 12 := by
  have hbelow : ∀ j ∈ (after.newIndex.keys.filterMap (expertIn py.decimals L) : Multiset ℕ),
      j ∈ Finset.range n := by
    intro j hj
    exact Finset.mem_range.mpr ((h.expertOf_iff hcomplete L j).mp
      (mem_experts.mp (Multiset.mem_coe.mp hj))).2
  have hcount : ∀ j ∈ Finset.range n,
      (after.newIndex.keys.filterMap (expertIn py.decimals L) : Multiset ℕ).count j = 12 := by
    intro j hj
    rw [Multiset.coe_count, List.count_filterMap,
      ← h.countP_expert hcomplete hmoe (Finset.mem_range.mp hj)]
    exact List.countP_congr fun nm _ => by rw [beq_iff_eq, decide_eq_true_eq]
  rw [← Multiset.coe_card, ← Multiset.sum_count_eq_card hbelow, Finset.sum_congr rfl hcount,
    Finset.sum_const, Finset.card_range, smul_eq_mul]

/-! ### The check -/

omit hcomplete in
/-- An indexed shard is accepted. -/
theorem BuildRun.shardAccepted {nm sh : String} (hnm : after.newIndex.get? nm = some sh) :
    ShardAccepted py out' sh := by
  obtain ⟨t, t', ht, hbecomes, -⟩ := (h.get?_newIndex nm sh).mp hnm
  have hsh : sh ∈ (shardsOf idx).keys := mem_keys_shardsOf.mpr ⟨t.name, ht.1⟩
  obtain ⟨hdr, ts, hout, hts, hnames, hmeta⟩ := exists_outTensors h.setting.snapshot
    h.setting.oneLine h.setting.lists h.setting.keeps hsh
  have hne : ts ≠ [] := List.ne_nil_of_mem ((hts t').mpr ⟨t, ht, hbecomes⟩)
  obtain ⟨file, hfile, hget⟩ := h.ran.written sh hdr ts ((h.shards sh).mpr hsh) hout hne
  obtain ⟨entries, -, -, rfl⟩ := h.result
  exact written_accepted hne hnames hmeta (h.json sh hdr ts hout) hfile
    ((get?_shard (h.setting.snapshot.shard t.name sh ht.1)).trans hget)

/-- The router of a layer is written with `n` rows. -/
theorem BuildRun.exists_router {L : ℕ} (hmoe : MoeLayer py.decimals idx.keys L) :
    ∃ sh t, t.name = gateName L ∧ HasTensor py.codec out' after.newIndex sh t ∧
      t.shape.head? = some n := by
  obtain ⟨sh, hsh⟩ := Dict.mem_keys_iff.mp (hcomplete.router L hmoe)
  obtain ⟨t, hname, ht⟩ := h.setting.snapshot.tensor _ sh hsh
  have hrouter : router py.decimals t.name = some (Nat.toDigits 10 L) := by
    rw [hname, router_gateName]
  have hlayer : py.decimals.int (Nat.toDigits 10 L) = L := int_toDigits _ L
  obtain ⟨hshape, hdvd⟩ := h.setting.snapshot.routers sh t _ ht hrouter (by rwa [hlayer])
  obtain ⟨e, -, he⟩ := (h.setting.snapshot.experts L hmoe).last
  have hkeep := h.setting.lists L hmoe
  obtain ⟨buf, shape, -, hsliced⟩ := exists_rowSlice (by omega) hshape hdvd hkeep.below
  have hbecomes : Becomes py.decimals idx.keys e0 kept t { t with shape := shape, bytes := buf } :=
    .sliced hrouter (by rwa [hlayer]) (by rwa [hlayer])
  refine ⟨sh, { t with shape := shape, bytes := buf }, hname,
    (h.pruned.tensors sh _).mpr ⟨t, ht, hbecomes⟩, ?_⟩
  rw [hsliced.shape, List.head?_cons, hkeep.length]

/-- **The directory is accepted.** -/
theorem BuildRun.accepted {num : J → Option ℕ} (hnum : num (py.number n) = some n) (hn : 0 < n)
    (hmoe : ∃ L, MoeLayer py.decimals idx.keys L) :
    ∃ layers, Accepted py num out' after.newIndex n layers := by
  have hnew : ∀ L, MoeLayer py.decimals after.newIndex.keys L ↔
      MoeLayer py.decimals idx.keys L := by
    intro L
    constructor
    · rintro ⟨j, hj⟩
      exact ((h.expertOf_iff hcomplete L j).mp hj).1
    · exact fun hL => ⟨0, (h.expertOf_iff hcomplete L 0).mpr ⟨hL, hn⟩⟩
  obtain ⟨L₀, hL₀⟩ := hmoe
  obtain ⟨first, rest, hspot⟩ := exists_spotLayers
    (List.ne_nil_of_mem (mem_moeLayers.mpr ((hnew L₀).mpr hL₀)))
  obtain ⟨entries, hconfig, hvalue, -⟩ := h.pruned.config
  refine ⟨first :: rest, ⟨_, h.pruned.index⟩, ⟨entries, _, hconfig, hvalue, hnum⟩,
    fun nm sh hnm => h.shardAccepted hnm, hspot, fun L hL => ?_⟩
  have hL : MoeLayer py.decimals idx.keys L :=
    (hnew L).mp (mem_moeLayers.mp (spotLayers_mem hspot hL))
  refine ⟨h.exists_router hcomplete hL, ⟨fun j hj => ?_, n - 1, ?_, by omega⟩,
    h.length_experts hcomplete hL⟩
  · exact ((h.expertOf_iff hcomplete L j).mp hj).2
  · exact (h.expertOf_iff hcomplete L (n - 1)).mpr ⟨hL, by omega⟩

end

/-! ### The total -/

section
variable {J : Type} (py : Python J)

/-- The bytes of what is written for a shard. -/
def shardBytes (p : Plan) (snap : Directory J) (shards : Dict String (List String))
    (sh : String) : ℕ :=
  match outTensors py p snap shards sh with
  | some (_, ts) => totalBytes ts
  | none => 0

/-- The bytes read back for an entry of an index. -/
def bytesAt (dir : Directory J) (e : String × String) : ℕ :=
  match dir.get? e.2 with
  | some (.bytes file) => ((readTensorBytes py.codec file e.1).map fun d => d.1.length).getD 0
  | _ => 0

/-- The bytes of all tensors of an index. -/
def indexedBytes (dir : Directory J) (idx : Dict String String) : ℕ :=
  (idx.entries.map (bytesAt py dir)).sum

variable {py}

theorem bytesAt_of_hasTensor {dir : Directory J} {idx : Dict String String} {sh : String}
    {t : TensorRecord} (h : HasTensor py.codec dir idx sh t) :
    bytesAt py dir (t.name, sh) = t.bytes.length := by
  obtain ⟨-, file, hfile, hread⟩ := h
  simp only [bytesAt, hfile, hread, Option.map_some, Option.getD_some]

/-- The running sum of the loop. -/
theorem total_pruneShards {p : Plan} {snap : Directory J} {shards : Dict String (List String)}
    {order : List String} {before after : Progress J}
    (h : order.foldlM (pruneShard py p snap shards) before = some after) :
    after.total = before.total + (order.map (shardBytes py p snap shards)).sum := by
  induction order generalizing before with
  | nil =>
    obtain rfl := Option.some.inj h
    rfl
  | cons sh order ih =>
    rw [List.foldlM_cons] at h
    obtain ⟨middle, hstep, hrest⟩ := Option.bind_eq_some_iff.mp h
    have hmiddle : middle.total = before.total + shardBytes py p snap shards sh := by
      unfold pruneShard at hstep
      obtain ⟨⟨hdr, ts⟩, hout, hstep⟩ := Option.bind_eq_some_iff.mp hstep
      rw [shardBytes, hout]
      dsimp only at hstep ⊢
      split at hstep
      · next hempty =>
        rw [List.isEmpty_iff.mp hempty, ← Option.some.inj hstep]
        rfl
      · obtain ⟨file, -, hstep⟩ := Option.bind_eq_some_iff.mp hstep
        rw [← Option.some.inj hstep]
    rw [ih hrest, hmiddle, List.map_cons, List.sum_cons, Nat.add_assoc]

/-- **The total** is the sum over the new index of the bytes read back. -/
theorem BuildRun.total_eq {snap out out' : Directory J} {idx : Dict String String} {e0 n : ℕ}
    {kept : ℕ → List ℕ} {p : Plan} {order : List String} {after : Progress J}
    (h : BuildRun py snap out out' idx e0 n kept p order after) :
    after.total = indexedBytes py out' after.newIndex := by
  have horder : ∀ sh ∈ order, sh ∈ (shardsOf idx).keys := fun sh hsh => (h.shards sh).mp hsh
  have hentries : after.newIndex.entries =
      order.flatMap (entered py p snap (shardsOf idx)) := by
    rw [h.ran.index, ← Dict.ofPairs]
    exact Dict.entries_ofPairs (h.setting.nodup_entered h.nodup horder)
  have hshard : ∀ sh ∈ order, shardBytes py p snap (shardsOf idx) sh =
      ((entered py p snap (shardsOf idx) sh).map (bytesAt py out')).sum := by
    intro sh hsh
    obtain ⟨hdr, ts, hout, hts, -, -⟩ := exists_outTensors h.setting.snapshot h.setting.oneLine
      h.setting.lists h.setting.keeps (horder sh hsh)
    rw [shardBytes, entered, hout]
    dsimp only
    rw [totalBytes, List.map_map]
    refine congrArg List.sum (List.map_congr_left fun t ht => ?_)
    exact (bytesAt_of_hasTensor ((h.pruned.tensors sh t).mpr ((hts t).mp ht))).symm
  rw [total_pruneShards h.loop, indexedBytes, hentries, List.map_flatMap, Nat.zero_add,
    List.map_congr_left hshard, List.flatMap_def, List.sum_flatten, List.map_map]
  rfl

end

section
variable {J : Type} (py : Python J) {num : J → Option ℕ} {select : ℕ → ℕ → List ℕ}
  {snap : Directory J} (out : Directory J) {idx : Dict String String} {e0 n : ℕ}

/-- A run that is not stopped by a header writes a pruned model that is accepted. -/
theorem exists_accepted (hnum : num (py.number n) = some n) (hsnap : WellFormed py snap idx e0)
    (hcomplete : Complete py.decimals idx.keys e0) (hline : OneLine py.decimals idx)
    (hmoe : ∃ L, MoeLayer py.decimals idx.keys L) (hn : 0 < n)
    (hkeep : ∀ L, MoeLayer py.decimals idx.keys L → KeepList e0 n (select e0 L))
    (hjson : ∀ header, Writes py select snap idx header →
      py.codec.loads (py.codec.dumps header) = some header) :
    (∃ header, Writes py select snap idx header ∧ 2 ^ 64 ≤ (py.codec.dumps header).length) ∨
    ∃ out' total weightMap, build py select snap out = some out' ∧
      Pruned py snap idx e0 n (select e0) out' total weightMap ∧
      validate py num out' snap = some true ∧ total = indexedBytes py out' weightMap := by
  rcases exists_buildRun py out hsnap hline hmoe hkeep hjson with hlong | ⟨out', p, order, after,
    hbuild, hrun⟩
  · exact Or.inl hlong
  · obtain ⟨layers, haccepted⟩ := hrun.accepted hcomplete hnum hn hmoe
    obtain ⟨total, hindex⟩ := hsnap.index
    have hvalid : validate py num out' snap = some true :=
      validate_eq_true.mpr ⟨⟨total, idx, hindex⟩, after.newIndex, n, layers, haccepted⟩
    exact Or.inr ⟨out', after.total, after.newIndex, hbuild, hrun.pruned, hvalid, hrun.total_eq⟩

/-- **Built models pass the check.** For a complete snapshot with MoE layers and names of
experts on one line, and a keep list of `n` distinct experts for every MoE layer, `n` not
zero, `build` writes a directory that `validate` accepts and whose total is the sum of the
bytes of its tensors, unless a header does not fit a length of 64 bits. -/
theorem build_validates (hnum : num (py.number n) = some n) (hsnap : WellFormed py snap idx e0)
    (hcomplete : Complete py.decimals idx.keys e0) (hline : OneLine py.decimals idx)
    (hmoe : ∃ L, MoeLayer py.decimals idx.keys L) (hn : 0 < n)
    (hkeep : ∀ L, MoeLayer py.decimals idx.keys L → KeepList e0 n (select e0 L))
    (hjson : ∀ header, Writes py select snap idx header →
      py.codec.loads (py.codec.dumps header) = some header) :
    (∃ header, Writes py select snap idx header ∧ 2 ^ 64 ≤ (py.codec.dumps header).length) ∨
    ∃ out' total weightMap, build py select snap out = some out' ∧
      out'.get? indexName = some (.index total weightMap) ∧
      validate py num out' snap = some true ∧ total = indexedBytes py out' weightMap := by
  rcases exists_accepted py out hnum hsnap hcomplete hline hmoe hn hkeep hjson with hlong |
    ⟨out', total, weightMap, hbuild, hpruned, hvalid, htotal⟩
  · exact Or.inl hlong
  · exact Or.inr ⟨out', total, weightMap, hbuild, hpruned.index, hvalid, htotal⟩

/-- **Dropping the same experts everywhere** leaves a pruned model that is accepted, as long
as one expert stays. -/
theorem build_fixedDrop (drop : List ℕ) (hnum : ∀ n, num (py.number n) = some n)
    (hsnap : WellFormed py snap idx e0) (hcomplete : Complete py.decimals idx.keys e0)
    (hline : OneLine py.decimals idx) (hmoe : ∃ L, MoeLayer py.decimals idx.keys L)
    (hleft : ∃ e < e0, e ∉ drop)
    (hjson : ∀ header, Writes py (fixedDropKeeplist drop) snap idx header →
      py.codec.loads (py.codec.dumps header) = some header) :
    (∃ header, Writes py (fixedDropKeeplist drop) snap idx header ∧
      2 ^ 64 ≤ (py.codec.dumps header).length) ∨
    ∃ out' total weightMap, build py (fixedDropKeeplist drop) snap out = some out' ∧
      Pruned py snap idx e0 ((List.range e0).countP fun e => e ∉ drop)
        (fixedDropKeeplist drop e0) out' total weightMap ∧
      validate py num out' snap = some true := by
  obtain ⟨e, he, hstays⟩ := hleft
  have hpos : 0 < (List.range e0).countP fun e => e ∉ drop :=
    List.countP_pos_iff.mpr ⟨e, List.mem_range.mpr he, decide_eq_true hstays⟩
  rcases exists_accepted py out (hnum _) hsnap hcomplete hline hmoe hpos
    (fun L _ => keepList_fixedDropKeeplist drop e0 L) hjson with hlong |
    ⟨out', total, weightMap, hbuild, hpruned, hvalid, -⟩
  · exact Or.inl hlong
  · exact Or.inr ⟨out', total, weightMap, hbuild, hpruned, hvalid⟩

/-- The keep lists by the routers' biases. -/
def biasSelect (snap : Directory J) (idx : Dict String String) (nKeep e0 L : ℕ) : List ℕ :=
  (biasKeeplist py.codec snap idx L e0 nKeep).getD []

/-- **Keeping the lowest biases** writes a pruned model that is accepted, with the lowest
biases of each MoE layer. -/
theorem build_lowestBias {bias : ℕ → List ℚ} (hnum : num (py.number n) = some n)
    (hsnap : WellFormed py snap idx e0) (hcomplete : Complete py.decimals idx.keys e0)
    (hline : OneLine py.decimals idx) (hmoe : ∃ L, MoeLayer py.decimals idx.keys L) (hn : 0 < n)
    (hn' : n ≤ e0)
    (hbias : ∀ L, MoeLayer py.decimals idx.keys L → (bias L).length = e0 ∧
      readBias py.codec snap idx L = some ((bias L).map ExactFloat.fin, "F32"))
    (hjson : ∀ header, Writes py (biasSelect py snap idx n) snap idx header →
      py.codec.loads (py.codec.dumps header) = some header) :
    (∀ L, MoeLayer py.decimals idx.keys L →
      LowestBias (bias L) n (biasSelect py snap idx n e0 L)) ∧
    ((∃ header, Writes py (biasSelect py snap idx n) snap idx header ∧
      2 ^ 64 ≤ (py.codec.dumps header).length) ∨
    ∃ out' total weightMap, build py (biasSelect py snap idx n) snap out = some out' ∧
      Pruned py snap idx e0 n (biasSelect py snap idx n e0) out' total weightMap ∧
      validate py num out' snap = some true) := by
  have hlowest : ∀ L, MoeLayer py.decimals idx.keys L →
      LowestBias (bias L) n (biasSelect py snap idx n e0 L) := by
    intro L hL
    obtain ⟨rfl, hread⟩ := hbias L hL
    rw [biasSelect, biasKeeplist_eq hread]
    exact lowestBias_lowest hn'
  have hkeep : ∀ L, MoeLayer py.decimals idx.keys L →
      KeepList e0 n (biasSelect py snap idx n e0 L) := fun L hL =>
    (hbias L hL).1 ▸ (hlowest L hL).keepList
  refine ⟨hlowest, ?_⟩
  rcases exists_accepted py out hnum hsnap hcomplete hline hmoe hn hkeep hjson with hlong |
    ⟨out', total, weightMap, hbuild, hpruned, hvalid, -⟩
  · exact Or.inl hlong
  · exact Or.inr ⟨out', total, weightMap, hbuild, hpruned, hvalid⟩

end

/-! ### Complete models, and names that end in a newline -/

/-- JSON, as far as some headers go. -/
def knownPython (known : List (Header String)) : Python String where
  decimals := .ascii
  codec :=
    { dumps := headerBytes
      loads := fun bytes => known.find? fun h => headerBytes h = bytes }
  number := toString

/-- A header that is known is given back. -/
theorem loads_knownPython {known : List (Header String)} (hdistinct : (known.map headerBytes).Nodup)
    {header : Header String} (h : header ∈ known) :
    (knownPython known).codec.loads ((knownPython known).codec.dumps header) = some header := by
  change (known.find? fun h => headerBytes h = headerBytes header) = some header
  induction known with
  | nil => cases h
  | cons first known ih =>
    obtain ⟨hfirst, hrest⟩ := List.nodup_cons.mp hdistinct
    rcases List.mem_cons.mp h with rfl | h
    · exact List.find?_cons_of_pos (decide_eq_true rfl)
    · have hother : headerBytes first ≠ headerBytes header := fun heq =>
        hfirst (heq ▸ List.mem_map_of_mem h)
      rw [List.find?_cons_of_neg (by simpa using hother), ih hrest h]

/-- Tensors of expert `e` of layer 0, of `size` bytes each. -/
def expertTensors (e size : ℕ) (suffixes : List (List Char)) : List TensorRecord :=
  suffixes.map fun s => ⟨expertName 0 e s, "U8", [size], List.replicate size 7⟩

/-- The router's weight for `e0` experts. -/
def gateTensor (e0 : ℕ) : TensorRecord := ⟨gateName 0, "U8", [e0, 1], List.replicate e0 9⟩

/-- What the samples are checked for. -/
structure FullModel (codec : HeaderCodec String) (shards : List (String × List TensorRecord))
    (e0 : ℕ) : Prop where
  storable : Storable codec shards
  positive : 0 < e0
  experts : ∀ s ∈ shards, ∀ t ∈ s.2, ∀ m ∈ expertMatch .ascii t.name,
    m.Canonical .ascii ∧ Decimals.ascii.int m.layer = 0 ∧ Decimals.ascii.int m.expert < e0
  routers : ∀ s ∈ shards, ∀ t ∈ s.2, ∀ layer ∈ router .ascii t.name,
    t.shape.head? = some e0 ∧ e0 ∣ t.bytes.length
  tensors : ∀ e < e0, (indexOfShards shards).keys.countP
    (fun nm => expertIn .ascii 0 nm = some e) = 12
  gate : gateName 0 ∈ (indexOfShards shards).keys

section
variable {known : List (Header String)} {shards : List (String × List TensorRecord)} {e0 : ℕ}
  (h : FullModel (knownPython known).codec shards e0)
include h

/-- A sample has the experts below `e0` of layer 0. -/
theorem FullModel.expertOf (L e : ℕ) :
    ExpertOf .ascii (indexOfShards shards).keys L e ↔ L = 0 ∧ e < e0 := by
  constructor
  · intro hexpert
    obtain ⟨s, hs, t, ht, m, hm, rfl, rfl⟩ :=
      (expertOf_indexOfShards h.storable .ascii L e).mp hexpert
    exact (h.experts s hs t ht m hm).2
  · rintro ⟨rfl, he⟩
    have hpos : 0 < (indexOfShards shards).keys.countP
        fun nm => expertIn .ascii 0 nm = some e := by
      rw [h.tensors e he]
      decide
    obtain ⟨nm, hnm, hexpert⟩ := List.countP_pos_iff.mp hpos
    exact mem_experts.mp (List.mem_filterMap.mpr ⟨nm, hnm, of_decide_eq_true hexpert⟩)

theorem FullModel.moeLayer (L : ℕ) :
    MoeLayer .ascii (indexOfShards shards).keys L ↔ L = 0 := by
  constructor
  · rintro ⟨e, he⟩
    exact ((h.expertOf L e).mp he).1
  · rintro rfl
    exact ⟨0, (h.expertOf 0 0).mpr ⟨rfl, h.positive⟩⟩

theorem FullModel.wellFormed :
    WellFormed (knownPython known) (shardedSnapshot (knownPython known) shards)
      (indexOfShards shards) e0 := by
  have hpos := h.positive
  refine wellFormed_shardedSnapshot h.storable
    (fun s hs t ht m hm => (h.experts s hs t ht m hm).1) ?_ h.routers
  intro L hL
  obtain rfl := (h.moeLayer L).mp hL
  exact ⟨fun e he => ((h.expertOf 0 e).mp he).2, e0 - 1,
    (h.expertOf 0 (e0 - 1)).mpr ⟨rfl, by omega⟩, by omega⟩

theorem FullModel.complete : Complete .ascii (indexOfShards shards).keys e0 where
  tensors L hL := by
    obtain rfl := (h.moeLayer L).mp hL
    exact h.tensors
  router L hL := by
    obtain rfl := (h.moeLayer L).mp hL
    exact h.gate

end

/-- Twelve suffixes. -/
def twelve : List (List Char) := (List.range 12).map slipSuffix

/-- The shard of an expert. -/
def firstShard : String := "model-00001-of-00002.safetensors"

/-- The shard of another expert, of the router and of a tensor without bytes. -/
def secondShard : String := "model-00002-of-00002.safetensors"

def twoShards : List (String × List TensorRecord) :=
  [(firstShard, expertTensors 0 1 twelve),
   (secondShard, expertTensors 1 2 twelve ++ [⟨"empty", "U8", [0], []⟩, gateTensor 2])]

/-- What is left of the second shard when expert 1 is kept. -/
def secondLeft : List TensorRecord :=
  expertTensors 0 2 twelve ++ [⟨"empty", "U8", [0], []⟩, gateTensor 1]

/-- The headers of the shards, of a shard that becomes empty and of what is left. -/
def twoHeaders : List (Header String) :=
  [expertTensors 0 1 twelve,
   expertTensors 1 2 twelve ++ [⟨"empty", "U8", [0], []⟩, gateTensor 2],
   [], secondLeft].map (buildHeader · none)

theorem twoHeaders_distinct : (twoHeaders.map headerBytes).Nodup := by decide +kernel

theorem fullModel_twoShards : FullModel (knownPython twoHeaders).codec twoShards 2 where
  storable :=
    { files := by decide
      suffix := by decide
      names := by decide +kernel
      reserved := by decide +kernel
      json := by
        intro s hs
        refine loads_knownPython twoHeaders_distinct ?_
        simp only [twoShards, List.mem_cons, List.not_mem_nil, or_false] at hs
        rcases hs with rfl | rfl <;> simp [twoHeaders]
      fits := by decide +kernel }
  positive := by decide
  experts := by decide +kernel
  routers := by decide +kernel
  tensors := by decide +kernel
  gate := by decide +kernel

/-- The headers that are written: one of no tensors, and one of what is left. -/
theorem twoShards_writes {header : Header String}
    (h : Writes (knownPython twoHeaders) (fun _ _ => [1])
      (shardedSnapshot (knownPython twoHeaders) twoShards) (indexOfShards twoShards) header) :
    header = buildHeader [] none ∨ header = buildHeader secondLeft none := by
  obtain ⟨p, sh, hdr, ts, hp, hts, rfl⟩ := h
  have hrun : ∀ shard ∈ [(firstShard, []), (secondShard, secondLeft)],
      ((plan .ascii (fun _ _ => [1]) (indexOfShards twoShards)).bind fun p =>
        (outTensors (knownPython twoHeaders) p
          (shardedSnapshot (knownPython twoHeaders) twoShards)
          (shardsOf (indexOfShards twoShards)) shard.1).map fun r =>
            (r.2, (metadataOf r.1).isNone)) = some (shard.2, true) := by
    decide +kernel
  have hleft : ∀ left, (sh, left) ∈ [(firstShard, []), (secondShard, secondLeft)] →
      buildHeader ts (metadataOf hdr) = buildHeader left none := by
    intro left hin
    have hsame := hrun _ hin
    change ((plan (knownPython twoHeaders).decimals _ _).bind _) = _ at hsame
    rw [hp, Option.bind_some, hts, Option.map_some, Option.some.injEq, Prod.mk.injEq,
      Option.isNone_iff_eq_none] at hsame
    dsimp only at hsame
    rw [hsame.1, hsame.2]
  have hsh := fullModel_twoShards.storable.mem_of_outTensors hts
  simp only [twoShards, List.map_cons, List.map_nil, List.mem_cons, List.not_mem_nil,
    or_false] at hsh
  rcases hsh with rfl | rfl
  · exact Or.inl (hleft [] List.mem_cons_self)
  · exact Or.inr (hleft secondLeft (List.mem_cons_of_mem _ List.mem_cons_self))

/-- The total size that an index names. -/
def totalSize {J : Type} : SnapFile J → Option ℕ
  | .index total _ => some total
  | _ => none

/-- Expert 1 of two is kept: its tensors have bytes, one has none, and expert 0's shard
becomes empty and is not written. -/
theorem build_validates_twelve : ∃ out' total weightMap,
    build (knownPython twoHeaders) (fun _ _ => [1])
      (shardedSnapshot (knownPython twoHeaders) twoShards) Dict.empty = some out' ∧
    out'.get? indexName = some (.index total weightMap) ∧
    validate (knownPython twoHeaders) slipNumber out'
      (shardedSnapshot (knownPython twoHeaders) twoShards) = some true ∧
    total = indexedBytes (knownPython twoHeaders) out' weightMap ∧
    (out'.get? firstShard).isNone ∧ total = 25 := by
  have hline : OneLine .ascii (indexOfShards twoShards) := by
    unfold OneLine
    decide +kernel
  have hjson : ∀ header, Writes (knownPython twoHeaders) (fun _ _ => [1])
      (shardedSnapshot (knownPython twoHeaders) twoShards) (indexOfShards twoShards) header →
        (knownPython twoHeaders).codec.loads ((knownPython twoHeaders).codec.dumps header) =
          some header := by
    intro header hw
    refine loads_knownPython twoHeaders_distinct ?_
    rcases twoShards_writes hw with rfl | rfl <;> simp [twoHeaders]
  have hnum : slipNumber ((knownPython twoHeaders).number 1) = some 1 := by decide +kernel
  have hrun : (build (knownPython twoHeaders) (fun _ _ => [1])
      (shardedSnapshot (knownPython twoHeaders) twoShards) Dict.empty).all (fun out' =>
        (out'.get? firstShard).isNone &&
          (out'.get? indexName).any (fun file => totalSize file == some 25)) = true := by
    decide +kernel
  rcases build_validates (knownPython twoHeaders) Dict.empty hnum
    fullModel_twoShards.wellFormed fullModel_twoShards.complete hline
    ⟨0, (fullModel_twoShards.moeLayer 0).mpr rfl⟩ Nat.one_pos
    (fun _ _ => ⟨rfl, by decide, by decide⟩) hjson with ⟨header, hw, hlong⟩ |
    ⟨out', total, weightMap, hbuild, hindex, hvalid, htotal⟩
  · rcases twoShards_writes hw with rfl | rfl <;> exact absurd hlong (by decide +kernel)
  · simp only [hbuild, Option.all_some, hindex, Option.any_some, totalSize, Bool.and_eq_true,
      beq_iff_eq, Option.some.injEq] at hrun
    exact ⟨out', total, weightMap, hbuild, hindex, hvalid, htotal, hrun.1, hrun.2⟩

/-- Twelve suffixes, two of which differ in a newline at the end. -/
def twelveLines : List (List Char) := (List.range 11).map slipSuffix ++ [slipSuffix 0 ++ ['\n']]

/-- One expert with a name that ends in a newline. -/
def lineSource : List TensorRecord := expertTensors 0 1 twelveLines ++ [gateTensor 1]

/-- What is written of it: the names without their newlines. -/
def lineWritten : List TensorRecord :=
  expertTensors 0 1 (twelveLines.map fun s => s.filter (· ≠ '\n')) ++ [gateTensor 1]

/-- The headers of what is read and of what is written. -/
def lineHeaders : List (Header String) := [lineSource, lineWritten].map (buildHeader · none)

theorem fullModel_lineSource : FullModel (knownPython lineHeaders).codec
    [(shardName, lineSource)] 1 where
  storable := storable_one (by decide +kernel) (by decide +kernel)
    (loads_knownPython (by decide +kernel) List.mem_cons_self) (by decide +kernel)
  positive := by decide
  experts := by decide +kernel
  routers := by decide +kernel
  tensors := by decide +kernel
  gate := by decide +kernel

/-- **Names that end in a newline** lose it when they are renamed: one expert is kept of
one, two of its twelve tensors get one name, and what is written is not accepted. -/
theorem build_validates_exception :
    WellFormed (knownPython lineHeaders) (oneShard (knownPython lineHeaders) lineSource)
      (indexOf lineSource) 1 ∧
    Complete .ascii (indexOf lineSource).keys 1 ∧
    (∃ L, MoeLayer .ascii (indexOf lineSource).keys L) ∧
    KeepList 1 1 [0] ∧
    ∃ out', build (knownPython lineHeaders) (fun _ _ => [0])
        (oneShard (knownPython lineHeaders) lineSource) Dict.empty = some out' ∧
      validate (knownPython lineHeaders) slipNumber out'
        (oneShard (knownPython lineHeaders) lineSource) = some false := by
  refine ⟨fullModel_lineSource.wellFormed, fullModel_lineSource.complete,
    ⟨0, (fullModel_lineSource.moeLayer 0).mpr rfl⟩, ⟨rfl, by decide, by decide⟩, ?_⟩
  have hrun : (build (knownPython lineHeaders) (fun _ _ => [0])
      (oneShard (knownPython lineHeaders) lineSource) Dict.empty).bind (fun out' =>
        validate (knownPython lineHeaders) slipNumber out'
          (oneShard (knownPython lineHeaders) lineSource)) = some false := by
    decide +kernel
  exact Option.bind_eq_some_iff.mp hrun

end Glm52.ExpertPrune
