import Glm52.ExpertPrune

/-! # Pruned snapshots

What `build` makes of a snapshot.  A shard is rewritten as what becomes of its tensors
(`exists_outTensors`), the loop over the shards writes each of them once and enters its
tensors in the index (`Ran`), no name is entered twice (`Setting.nodup_entered`), and so
the index leads to exactly the tensors that the source's tensors become
(`build_prunes`). -/
namespace Glm52.ExpertPrune
open TensorNames

/-! ### The tensors of a shard -/

/-- Tensors one after another: what comes out is what each of them is written as. -/
theorem exists_pruneTensors {prune : String → Option (Option TensorRecord)} {names : List String}
    (hprune : ∀ nm ∈ names, ∃ r, prune nm = some r) :
    ∃ ts, pruneTensors prune names = some ts ∧
      ∀ t, t ∈ ts ↔ ∃ nm ∈ names, prune nm = some (some t) := by
  induction names with
  | nil => exact ⟨[], rfl, by simp⟩
  | cons nm names ih =>
    obtain ⟨r, hr⟩ := hprune nm List.mem_cons_self
    obtain ⟨ts, hts, hmem⟩ := ih fun nm' hnm' => hprune nm' (List.mem_cons_of_mem nm hnm')
    refine ⟨r.toList ++ ts, by simp only [pruneTensors, hr, hts, Option.bind_eq_bind,
      Option.bind_some], fun t => ?_⟩
    simp [hmem, hr]

/-- Names that stay apart come out apart. -/
theorem nodup_pruneTensors {prune : String → Option (Option TensorRecord)} {names : List String}
    {ts : List TensorRecord} (hprune : ∀ nm ∈ names, ∃ r, prune nm = some r)
    (hts : pruneTensors prune names = some ts) (hnodup : names.Nodup)
    (hinj : ∀ nm ∈ names, ∀ nm' ∈ names, ∀ t t', prune nm = some (some t) →
      prune nm' = some (some t') → t.name = t'.name → nm = nm') :
    (ts.map TensorRecord.name).Nodup := by
  induction names generalizing ts with
  | nil =>
    obtain rfl := Option.some.inj hts
    exact List.nodup_nil
  | cons nm names ih =>
    obtain ⟨r, hr⟩ := hprune nm List.mem_cons_self
    have hprune' := fun nm' hnm' => hprune nm' (List.mem_cons_of_mem nm hnm')
    obtain ⟨ts', hts', hmem⟩ := exists_pruneTensors hprune'
    simp only [pruneTensors, hr, hts', Option.bind_eq_bind, Option.bind_some,
      Option.some.injEq] at hts
    rw [List.nodup_cons] at hnodup
    -- the names behind the first are apart, and the first is none of them
    have hrest := ih hprune' hts' hnodup.2 fun nm₁ h₁ nm₂ h₂ =>
      hinj nm₁ (List.mem_cons_of_mem nm h₁) nm₂ (List.mem_cons_of_mem nm h₂)
    rw [← hts]
    cases r with
    | none => exact hrest
    | some t =>
      refine List.nodup_cons.mpr ⟨fun hin => ?_, hrest⟩
      obtain ⟨t', ht', hname⟩ := List.mem_map.mp hin
      obtain ⟨nm', hnm', hprune₂⟩ := (hmem t').mp ht'
      have hsame := hinj nm List.mem_cons_self nm' (List.mem_cons_of_mem nm hnm') t t' hr hprune₂
        hname.symm
      exact hnodup.1 (hsame ▸ hnm')

/-- The loop that groups the names, entry by entry. -/
theorem getD_shards (entries : List (String × String)) (d : Dict String (List String))
    (sh : String) :
    ((entries.foldl (fun d e => d.set e.2 ((d.get? e.2).getD [] ++ [e.1])) d).get? sh).getD [] =
      (d.get? sh).getD [] ++ (entries.filter fun e => e.2 = sh).map Prod.fst := by
  induction entries generalizing d with
  | nil => simp
  | cons e entries ih =>
    rw [List.foldl_cons, ih, Dict.get?_set]
    by_cases hsh : sh = e.2
    · subst hsh
      simp
    · rw [if_neg hsh, List.filter_cons_of_neg (by simpa using Ne.symm hsh)]

theorem mem_keys_shards (entries : List (String × String)) (d : Dict String (List String))
    (sh : String) :
    sh ∈ (entries.foldl (fun d e => d.set e.2 ((d.get? e.2).getD [] ++ [e.1])) d).keys ↔
      sh ∈ d.keys ∨ sh ∈ entries.map Prod.snd := by
  induction entries generalizing d with
  | nil => simp
  | cons e entries ih =>
    rw [List.foldl_cons, ih, Dict.mem_keys_set, List.map_cons, List.mem_cons]
    tauto

/-- The shards are the ones the index names. -/
theorem mem_keys_shardsOf {idx : Dict String String} {sh : String} :
    sh ∈ (shardsOf idx).keys ↔ ∃ nm, idx.get? nm = some sh := by
  have hempty : sh ∉ (Dict.empty : Dict String (List String)).keys := List.not_mem_nil
  rw [shardsOf, mem_keys_shards, or_iff_right hempty, List.mem_map]
  constructor
  · rintro ⟨⟨nm, sh'⟩, he, rfl⟩
    exact ⟨nm, Dict.get?_eq_some.mpr he⟩
  · rintro ⟨nm, hnm⟩
    exact ⟨(nm, sh), Dict.get?_eq_some.mp hnm, rfl⟩

/-- A shard's names are the ones that the index gives it. -/
theorem exists_shardNames {idx : Dict String String} {sh : String}
    (hsh : sh ∈ (shardsOf idx).keys) :
    ∃ names, (shardsOf idx).get? sh = some names ∧ names.Nodup ∧
      ∀ nm, nm ∈ names ↔ idx.get? nm = some sh := by
  obtain ⟨names, hnames⟩ := Dict.mem_keys_iff.mp hsh
  have hfilter : names = (idx.entries.filter fun e => e.2 = sh).map Prod.fst := by
    have hget := getD_shards idx.entries Dict.empty sh
    rw [← shardsOf, hnames] at hget
    simpa [Dict.get?_empty] using hget
  refine ⟨names, hnames, ?_, fun nm => ?_⟩
  · rw [hfilter]
    exact idx.nodup.sublist (List.filter_sublist.map Prod.fst)
  · rw [hfilter, Dict.get?_eq_some]
    simp

/-- A shard that is read is one of the index. -/
theorem mem_keys_of_outTensors {J : Type} {py : Python J} {p : Plan} {snap : Directory J}
    {shards : Dict String (List String)} {sh : String} {r : Header J × List TensorRecord}
    (h : outTensors py p snap shards sh = some r) : sh ∈ shards.keys := by
  unfold outTensors at h
  split at h
  · obtain ⟨_, -, h⟩ := Option.bind_eq_some_iff.mp h
    obtain ⟨names, hnames, -⟩ := Option.bind_eq_some_iff.mp h
    exact Dict.mem_keys_iff.mpr ⟨names, hnames⟩
  · cases h

/-! ### Snapshots -/

section
variable {J : Type}

/-- A snapshot: an index, a configuration, and shards that have the tensors the index
gives them; numbers in their canonical form, `e0` experts in every MoE layer, and routers
of `e0` rows. -/
structure WellFormed (py : Python J) (snap : Directory J) (idx : Dict String String) (e0 : ℕ) :
    Prop where
  index : ∃ total, snap.get? indexName = some (.index total idx)
  config : ∃ entries, snap.get? configName = some (.config entries)
  shard : ∀ nm sh, idx.get? nm = some sh → ".safetensors".toList <:+ sh.toList
  tensor : ∀ nm sh, idx.get? nm = some sh → ∃ t, t.name = nm ∧ HasTensor py.codec snap idx sh t
  reserved : ∀ sh file hdr ds info, snap.get? sh = some (.bytes file) →
    parseHeader py.codec file = some (hdr, ds) → hdr.get? metadataKey ≠ some (.tensor info)
  canonical : ∀ nm ∈ idx.keys, ∀ m, expertMatch py.decimals nm = some m → m.Canonical py.decimals
  experts : ∀ L, MoeLayer py.decimals idx.keys L → CountOf (ExpertOf py.decimals idx.keys L) e0
  routers : ∀ sh t layer, HasTensor py.codec snap idx sh t →
    router py.decimals t.name = some layer → MoeLayer py.decimals idx.keys (py.decimals.int layer) →
      t.shape.head? = some e0 ∧ e0 ∣ t.bytes.length

/-- The names of a snapshot's expert tensors are on one line each. -/
def OneLine (dec : Decimals) (idx : Dict String String) : Prop :=
  ∀ nm ∈ idx.keys, (expertMatch dec nm).isSome → '\n' ∉ nm.toList

/-- An expert's name is built from its groups. -/
theorem OneLine.eq_expertName {dec : Decimals} {idx : Dict String String}
    (hline : OneLine dec idx)
    (hcanon : ∀ nm ∈ idx.keys, ∀ m, expertMatch dec nm = some m → m.Canonical dec)
    {nm : String} {m : ExpertGroups} (hkey : nm ∈ idx.keys) (hm : expertMatch dec nm = some m) :
    nm = expertName (dec.int m.layer) (dec.int m.expert) m.suffix :=
  (hcanon nm hkey m hm).eq_expertName (hline nm hkey (Option.isSome_of_mem hm)) hm

/-- A header that `build` writes. -/
def Writes (py : Python J) (select : ℕ → ℕ → List ℕ) (snap : Directory J)
    (idx : Dict String String) (header : Header J) : Prop :=
  ∃ p sh hdr ts, plan py.decimals select idx = some p ∧
    outTensors py p snap (shardsOf idx) sh = some (hdr, ts) ∧
    header = buildHeader ts (metadataOf hdr)

variable {py : Python J} {snap : Directory J} {idx : Dict String String} {e0 n : ℕ}
  {kept : ℕ → List ℕ}

theorem HasTensor.mem_keys {codec : HeaderCodec J} {dir : Directory J} {sh : String}
    {t : TensorRecord} (h : HasTensor codec dir idx sh t) : t.name ∈ idx.keys :=
  Dict.mem_keys_iff.mpr ⟨sh, h.1⟩

/-- A name has one tensor. -/
theorem HasTensor.unique {codec : HeaderCodec J} {dir : Directory J} {sh sh' : String}
    {t t' : TensorRecord} (h : HasTensor codec dir idx sh t) (h' : HasTensor codec dir idx sh' t')
    (hname : t.name = t'.name) : sh = sh' ∧ t = t' := by
  obtain ⟨name, dtype, shape, bytes⟩ := t
  obtain ⟨name', dtype', shape', bytes'⟩ := t'
  obtain rfl : name = name' := hname
  obtain ⟨hidx, file, hfile, hread⟩ := h
  obtain ⟨hidx', file', hfile', hread'⟩ := h'
  obtain rfl : sh = sh' := Option.some.inj (hidx.symm.trans hidx')
  obtain rfl : file = file' := by simpa using hfile.symm.trans hfile'
  have hsame := hread.symm.trans hread'
  simp only [Option.some.injEq, Prod.mk.injEq] at hsame
  exact ⟨rfl, by rw [hsame.1, hsame.2.1, hsame.2.2]⟩

/-- The name of what a tensor becomes. -/
theorem Becomes.name_eq {dec : Decimals} {names : List String} {t t' : TensorRecord}
    (h : Becomes dec names e0 kept t t') :
    (∃ m j, expertMatch dec t.name = some m ∧
      (kept (dec.int m.layer))[j]? = some (dec.int m.expert) ∧
      t'.name = expertName (dec.int m.layer) j m.suffix) ∨
    (expertMatch dec t.name = none ∧ t'.name = t.name) := by
  rcases h with ⟨hexpert, hj⟩ | ⟨hrouter, -, hsliced⟩ | ⟨hexpert, -⟩
  · exact Or.inl ⟨_, _, hexpert, hj, rfl⟩
  · exact Or.inr ⟨expertMatch_of_router hrouter, hsliced.name⟩
  · exact Or.inr ⟨hexpert, rfl⟩

/-- A renamed tensor is an expert's. -/
theorem expertMatch_renamed {dec : Decimals} {name : String} {m : ExpertGroups}
    (h : expertMatch dec name = some m) (L j : ℕ) :
    ∃ m', expertMatch dec (expertName L j m.suffix) = some m' := by
  obtain ⟨hne, hline, -⟩ := expertMatch_eq_some h
  exact ⟨_, expertMatch_expertName L j hne hline⟩

/-- **Renamed tensors do not collide**, neither with one another nor with the others. -/
theorem Becomes.name_inj (hcanon : ∀ nm ∈ idx.keys, ∀ m, expertMatch py.decimals nm = some m →
      m.Canonical py.decimals)
    (hline : OneLine py.decimals idx) {t₁ t₁' t₂ t₂' : TensorRecord} (hkey₁ : t₁.name ∈ idx.keys)
    (hkey₂ : t₂.name ∈ idx.keys) (h₁ : Becomes py.decimals idx.keys e0 kept t₁ t₁')
    (h₂ : Becomes py.decimals idx.keys e0 kept t₂ t₂') (hname : t₁'.name = t₂'.name) :
    t₁.name = t₂.name := by
  -- two experts: equal places in one list; an expert's new name is matched, the others' is not
  rcases h₁.name_eq with ⟨m₁, j₁, hm₁, hj₁, hn₁⟩ | ⟨hm₁, hn₁⟩
  · rcases h₂.name_eq with ⟨m₂, j₂, hm₂, hj₂, hn₂⟩ | ⟨hm₂, hn₂⟩
    · obtain ⟨hne₁, hline₁, -⟩ := expertMatch_eq_some hm₁
      obtain ⟨hne₂, hline₂, -⟩ := expertMatch_eq_some hm₂
      rw [hn₁, hn₂] at hname
      obtain ⟨hL, rfl, hsuffix⟩ := expertName_inj hne₁ hline₁ hne₂ hline₂ hname
      rw [hL, hj₂] at hj₁
      rw [hline.eq_expertName hcanon hkey₁ hm₁, hline.eq_expertName hcanon hkey₂ hm₂, hL, hsuffix,
        Option.some.inj hj₁]
    · obtain ⟨m', hm'⟩ := expertMatch_renamed hm₁ (py.decimals.int m₁.layer) j₁
      rw [← hn₁, hname, hn₂, hm₂] at hm'
      cases hm'
  · rcases h₂.name_eq with ⟨m₂, j₂, hm₂, -, hn₂⟩ | ⟨-, hn₂⟩
    · obtain ⟨m', hm'⟩ := expertMatch_renamed hm₂ (py.decimals.int m₂.layer) j₂
      rw [← hn₂, ← hname, hn₁, hm₁] at hm'
      cases hm'
    · rw [← hn₁, ← hn₂, hname]

/-- The key of the metadata is no tensor's name. -/
theorem WellFormed.metadataKey_ne (hsnap : WellFormed py snap idx e0) {sh : String}
    {t : TensorRecord} (ht : HasTensor py.codec snap idx sh t) : t.name ≠ metadataKey := by
  intro hname
  obtain ⟨-, file, hfile, hread⟩ := ht
  unfold readTensorBytes at hread
  obtain ⟨⟨hdr, ds⟩, hhdr, hread⟩ := Option.bind_eq_some_iff.mp hread
  dsimp only at hread
  rw [hname] at hread
  split at hread
  · next info hinfo => exact hsnap.reserved sh file hdr ds info hfile hhdr hinfo
  · cases hread

/-- **One shard.** What is written for a shard is what becomes of its tensors, under
distinct names. -/
theorem exists_outTensors (hsnap : WellFormed py snap idx e0) (hline : OneLine py.decimals idx)
    (hkept : ∀ L, MoeLayer py.decimals idx.keys L → KeepList e0 n (kept L)) {p : Plan}
    (hplan : p.Keeps py.decimals idx.keys kept n) {sh : String}
    (hsh : sh ∈ (shardsOf idx).keys) :
    ∃ hdr ts, outTensors py p snap (shardsOf idx) sh = some (hdr, ts) ∧
      (∀ t', t' ∈ ts ↔ ∃ t, HasTensor py.codec snap idx sh t ∧
        Becomes py.decimals idx.keys e0 kept t t') ∧
      (ts.map TensorRecord.name).Nodup ∧ metadataKey ∉ ts.map TensorRecord.name := by
  obtain ⟨names, hnames, hnodup, hmem⟩ := exists_shardNames hsh
  obtain ⟨nm₀, hnm₀⟩ := mem_keys_shardsOf.mp hsh
  obtain ⟨t₀, -, -, file, hfile, hread₀⟩ := hsnap.tensor nm₀ sh hnm₀
  obtain ⟨⟨hdr, ds⟩, hhdr, -⟩ := Option.bind_eq_some_iff.mp hread₀
  -- every name of the shard is written as what becomes of its tensor
  have hone : ∀ nm ∈ names, ∃ t r, t.name = nm ∧ HasTensor py.codec snap idx sh t ∧
      pruneTensor py.decimals p hdr ds file nm = some r ∧
      ∀ t', r = some t' ↔ Becomes py.decimals idx.keys e0 kept t t' := by
    intro nm hnm
    obtain ⟨t, rfl, ht⟩ := hsnap.tensor nm sh ((hmem nm).mp hnm)
    have ⟨_, file', hfile', hread⟩ := ht
    obtain rfl : file = file' := by simpa using hfile.symm.trans hfile'
    have hload := (readTensorBytes_eq_some hhdr t).mp hread
    obtain ⟨r, hr, hbecomes⟩ := exists_pruneTensor hplan hsnap.experts hkept ht.mem_keys hload
      (hsnap.routers sh t · ht)
    exact ⟨t, r, rfl, ht, hr, hbecomes⟩
  have hprune : ∀ nm ∈ names, ∃ r, pruneTensor py.decimals p hdr ds file nm = some r :=
    fun nm hnm => let ⟨_, r, _, _, hr, _⟩ := hone nm hnm; ⟨r, hr⟩
  -- and what is written for a name comes from its tensor
  have hfrom : ∀ nm ∈ names, ∀ t', pruneTensor py.decimals p hdr ds file nm = some (some t') →
      ∃ t, t.name = nm ∧ HasTensor py.codec snap idx sh t ∧
        Becomes py.decimals idx.keys e0 kept t t' := by
    intro nm hnm t' ht'
    obtain ⟨t, r, hname, ht, hr, hbecomes⟩ := hone nm hnm
    exact ⟨t, hname, ht, (hbecomes t').mp (Option.some.inj (hr.symm.trans ht'))⟩
  obtain ⟨ts, hts, htsMem⟩ := exists_pruneTensors hprune
  have htensors : ∀ t', t' ∈ ts ↔ ∃ t, HasTensor py.codec snap idx sh t ∧
      Becomes py.decimals idx.keys e0 kept t t' := by
    intro t'
    rw [htsMem]
    constructor
    · rintro ⟨nm, hnm, hwritten⟩
      obtain ⟨t, -, hrest⟩ := hfrom nm hnm t' hwritten
      exact ⟨t, hrest⟩
    · rintro ⟨t, ht, hbecomes⟩
      have hnm := (hmem t.name).mpr ht.1
      obtain ⟨t₂, r, hname, ht₂, hr, hbecomes₂⟩ := hone t.name hnm
      obtain rfl := (ht₂.unique ht hname).2
      exact ⟨t₂.name, hnm, by rw [hr, (hbecomes₂ t').mpr hbecomes]⟩
  refine ⟨hdr, ts, ?_, htensors, ?_, ?_⟩
  · simp only [outTensors, hfile, hhdr, hnames, hts, Option.bind_eq_bind, Option.bind_some]
  · refine nodup_pruneTensors hprune hts hnodup fun nm hnm nm' hnm' t t' ht ht' hname => ?_
    obtain ⟨t₁, rfl, ht₁, hb₁⟩ := hfrom nm hnm t ht
    obtain ⟨t₂, rfl, ht₂, hb₂⟩ := hfrom nm' hnm' t' ht'
    exact hb₁.name_inj hsnap.canonical hline ht₁.mem_keys ht₂.mem_keys hb₂ hname
  · intro hin
    obtain ⟨t', ht', hname⟩ := List.mem_map.mp hin
    obtain ⟨t, ht, hbecomes⟩ := (htensors t').mp ht'
    rcases hbecomes.name_eq with ⟨m, j, hm, -, hn⟩ | ⟨-, hn⟩
    · have hfront := congrArg String.toList (hn.symm.trans hname)
      rw [toList_expertName, metadataKey] at hfront
      simp at hfront
    · exact hsnap.metadataKey_ne ht (hn ▸ hname)

/-! ### The loop over the shards -/

/-- What is entered in the index for a shard. -/
def entered (py : Python J) (p : Plan) (snap : Directory J) (shards : Dict String (List String))
    (sh : String) : List (String × String) :=
  match outTensors py p snap shards sh with
  | some (_, ts) => ts.map fun t => (t.name, sh)
  | none => []

/-- The tensors of a shard are entered one after another. -/
theorem foldl_enter (ts : List TensorRecord) (sh : String) (newIndex : Dict String String) :
    ts.foldl (fun idx t => idx.set t.name sh) newIndex =
      (ts.map fun t => (t.name, sh)).foldl (fun d e => d.set e.1 e.2) newIndex := by
  rw [List.foldl_map]

/-- What a run over the shards has done: a shard with tensors is written, other files stay,
and the index has every tensor that was entered. -/
structure Ran (py : Python J) (p : Plan) (snap : Directory J) (shards : Dict String (List String))
    (order : List String) (before after : Progress J) : Prop where
  written : ∀ sh hdr ts, sh ∈ order → outTensors py p snap shards sh = some (hdr, ts) → ts ≠ [] →
    ∃ file, writeSafetensors py.codec ts (metadataOf hdr) = some file ∧
      after.out.get? sh = some (.bytes file)
  frame : ∀ f, f ∉ order → after.out.get? f = before.out.get? f
  index : after.newIndex = (order.flatMap (entered py p snap shards)).foldl
    (fun d e => d.set e.1 e.2) before.newIndex

/-- One step of the loop: it fails on a header that is too long, and nowhere else. -/
theorem pruneShard_cases {p : Plan} {shards : Dict String (List String)} {sh : String}
    {hdr : Header J} {ts : List TensorRecord}
    (hout : outTensors py p snap shards sh = some (hdr, ts)) (before : Progress J) :
    (writeSafetensors py.codec ts (metadataOf hdr) = none) ∨
    ∃ after, pruneShard py p snap shards before sh = some after ∧
      Ran py p snap shards [sh] before after := by
  have hentered : entered py p snap shards sh = ts.map fun t => (t.name, sh) := by
    rw [entered, hout]
  by_cases hts : ts = []
  · subst hts
    refine Or.inr ⟨before, by simp [pruneShard, hout], ?_, fun f _ => rfl, ?_⟩
    · intro sh' hdr' ts' hsh' hout' hne
      obtain rfl := List.mem_singleton.mp hsh'
      obtain ⟨-, rfl⟩ := Prod.mk.inj (Option.some.inj (hout.symm.trans hout'))
      exact absurd rfl hne
    · rw [List.flatMap_singleton, hentered]
      rfl
  · cases hfile : writeSafetensors py.codec ts (metadataOf hdr) with
    | none => exact Or.inl rfl
    | some file =>
      refine Or.inr ⟨⟨before.out.set sh (.bytes file),
        ts.foldl (fun idx t => idx.set t.name sh) before.newIndex,
        before.total + totalBytes ts⟩, ?_, ?_, ?_, ?_⟩
      · simp [pruneShard, hout, hts, hfile]
      · intro sh' hdr' ts' hsh' hout' _
        obtain rfl := List.mem_singleton.mp hsh'
        obtain ⟨rfl, rfl⟩ := Prod.mk.inj (Option.some.inj (hout.symm.trans hout'))
        exact ⟨file, hfile, by rw [Dict.get?_set, if_pos rfl]⟩
      · intro f hf
        rw [Dict.get?_set, if_neg (fun h => hf (List.mem_singleton.mpr h))]
      · rw [List.flatMap_singleton, hentered, ← foldl_enter]

/-- Steps one behind the other. -/
theorem Ran.cons {p : Plan} {shards : Dict String (List String)} {sh : String}
    {order : List String} {before middle after : Progress J} (hsh : sh ∉ order)
    (h₁ : Ran py p snap shards [sh] before middle) (h₂ : Ran py p snap shards order middle after) :
    Ran py p snap shards (sh :: order) before after where
  written sh' hdr ts hin hout hne := by
    rcases List.mem_cons.mp hin with rfl | hin
    · obtain ⟨file, hfile, hget⟩ := h₁.written sh' hdr ts (List.mem_singleton.mpr rfl) hout hne
      exact ⟨file, hfile, by rw [h₂.frame sh' hsh, hget]⟩
    · exact h₂.written sh' hdr ts hin hout hne
  frame f hf := by
    rw [List.mem_cons, not_or] at hf
    rw [h₂.frame f hf.2, h₁.frame f (fun h => hf.1 (List.mem_singleton.mp h))]
  index := by
    rw [h₂.index, h₁.index, List.flatMap_singleton, List.flatMap_cons, List.foldl_append]

/-- **The loop** writes every shard, unless a header is too long. -/
theorem foldlM_pruneShard {p : Plan} {shards : Dict String (List String)} {order : List String}
    (hnodup : order.Nodup)
    (hout : ∀ sh ∈ order, ∃ hdr ts, outTensors py p snap shards sh = some (hdr, ts))
    (before : Progress J) :
    (∃ sh hdr ts, outTensors py p snap shards sh = some (hdr, ts) ∧
      writeSafetensors py.codec ts (metadataOf hdr) = none) ∨
    ∃ after, order.foldlM (pruneShard py p snap shards) before = some after ∧
      Ran py p snap shards order before after := by
  induction order generalizing before with
  | nil =>
    exact Or.inr ⟨before, rfl, fun _ _ _ h => absurd h List.not_mem_nil, fun _ _ => rfl, rfl⟩
  | cons sh order ih =>
    rw [List.nodup_cons] at hnodup
    obtain ⟨hdr, ts, hsh⟩ := hout sh List.mem_cons_self
    rcases pruneShard_cases hsh before with hfail | ⟨middle, hstep, hran⟩
    · exact Or.inl ⟨sh, hdr, ts, hsh, hfail⟩
    · rcases ih hnodup.2 (fun sh' h => hout sh' (List.mem_cons_of_mem sh h)) middle with
        hfail | ⟨after, hrest, hran'⟩
      · exact Or.inl hfail
      · exact Or.inr ⟨after, by rw [List.foldlM_cons, hstep]; exact hrest,
          hran.cons hnodup.1 hran'⟩

/-! ### The output -/

/-- The files that `build` writes itself are not copied over. -/
theorem get?_copyOthers {dir out : Directory J} {f : String} (hf : isOther f = false) :
    (copyOthers dir out).get? f = out.get? f := by
  have hfold : ∀ (entries : List (String × SnapFile J)) (out : Directory J),
      (entries.foldl (fun out e => if isOther e.1 then out.set e.1 e.2 else out) out).get? f =
        out.get? f := by
    intro entries
    induction entries with
    | nil => exact fun _ => rfl
    | cons e entries ih =>
      intro out
      rw [List.foldl_cons, ih]
      by_cases he : isOther e.1 = true
      · rw [if_pos he, Dict.get?_set, if_neg]
        rintro rfl
        rw [hf] at he
        cases he
      · rw [if_neg he]
  exact hfold dir.entries out

/-- A shard is what the loop has written, when the index and the configuration are written
and the other files copied. -/
theorem get?_shard {snap : Directory J} {after : Progress J} {entries : Dict String J}
    {sh : String} (hsuffix : ".safetensors".toList <:+ sh.toList) :
    (copyOthers snap ((after.out.set indexName (.index after.total after.newIndex)).set
      configName (.config entries))).get? sh = after.out.get? sh := by
  have hother : isOther sh = false := by
    rw [isOther, List.isSuffixOf_iff_suffix.mpr hsuffix]
    rfl
  have hindexNe : sh ≠ indexName := by
    rintro rfl
    exact absurd hsuffix (by decide)
  have hconfigNe : sh ≠ configName := by
    rintro rfl
    exact absurd hsuffix (by decide)
  rw [get?_copyOthers hother, Dict.get?_set, if_neg hconfigNe, Dict.get?_set, if_neg hindexNe]

/-- A pruned model: the configuration has the new count; the tensors under the index are
what becomes of the snapshot's tensors, each in the shard it came from; the index names
no tensor that is not in its shard, and an indexed shard has no tensor that the index does
not give it; and no two tensors become one. -/
structure Pruned (py : Python J) (snap : Directory J) (idx : Dict String String) (e0 n : ℕ)
    (kept : ℕ → List ℕ) (out : Directory J) (total : ℕ) (weightMap : Dict String String) :
    Prop where
  index : out.get? indexName = some (.index total weightMap)
  config : ∃ entries, out.get? configName = some (.config entries) ∧
    entries.get? "num_experts" = some (py.number n) ∧
    entries.get? "n_routed_experts" = some (py.number n)
  tensors : ∀ sh t', HasTensor py.codec out weightMap sh t' ↔
    ∃ t, HasTensor py.codec snap idx sh t ∧ Becomes py.decimals idx.keys e0 kept t t'
  indexed : ∀ nm sh, weightMap.get? nm = some sh →
    ∃ t', t'.name = nm ∧ HasTensor py.codec out weightMap sh t'
  contained : ∀ nm sh file nm' data, weightMap.get? nm = some sh →
    out.get? sh = some (.bytes file) → readTensorBytes py.codec file nm' = some data →
      weightMap.get? nm' = some sh
  distinct : ∀ sh₁ sh₂ t₁ t₂ t₁' t₂', HasTensor py.codec snap idx sh₁ t₁ →
    HasTensor py.codec snap idx sh₂ t₂ → Becomes py.decimals idx.keys e0 kept t₁ t₁' →
      Becomes py.decimals idx.keys e0 kept t₂ t₂' → t₁'.name = t₂'.name → t₁ = t₂

/-- What the proofs about a run assume: the snapshot, the keep lists, and their plan. -/
structure Setting (py : Python J) (snap : Directory J) (idx : Dict String String) (e0 n : ℕ)
    (kept : ℕ → List ℕ) (p : Plan) : Prop where
  snapshot : WellFormed py snap idx e0
  oneLine : OneLine py.decimals idx
  lists : ∀ L, MoeLayer py.decimals idx.keys L → KeepList e0 n (kept L)
  keeps : p.Keeps py.decimals idx.keys kept n

section
variable {p : Plan} (h : Setting py snap idx e0 n kept p)
include h

/-- What is entered for a shard are the names of what becomes of its tensors. -/
theorem Setting.mem_entered {sh : String} (hsh : sh ∈ (shardsOf idx).keys) (e : String × String) :
    e ∈ entered py p snap (shardsOf idx) sh ↔ e.2 = sh ∧
      ∃ t t', HasTensor py.codec snap idx sh t ∧
        Becomes py.decimals idx.keys e0 kept t t' ∧ t'.name = e.1 := by
  obtain ⟨hdr, ts, hout, hts, -, -⟩ := exists_outTensors h.snapshot h.oneLine h.lists h.keeps hsh
  rw [entered, hout, List.mem_map]
  constructor
  · rintro ⟨t', ht', rfl⟩
    obtain ⟨t, ht, hbecomes⟩ := (hts t').mp ht'
    exact ⟨rfl, t, t', ht, hbecomes, rfl⟩
  · rintro ⟨hsnd, t, t', ht, hbecomes, hname⟩
    exact ⟨t', (hts t').mpr ⟨t, ht, hbecomes⟩, Prod.ext hname hsnd.symm⟩

/-- Tensors that become tensors of one name are one tensor. -/
theorem Setting.unique {sh₁ sh₂ : String} {t₁ t₂ t₁' t₂' : TensorRecord}
    (ht₁ : HasTensor py.codec snap idx sh₁ t₁) (ht₂ : HasTensor py.codec snap idx sh₂ t₂)
    (h₁ : Becomes py.decimals idx.keys e0 kept t₁ t₁')
    (h₂ : Becomes py.decimals idx.keys e0 kept t₂ t₂') (hname : t₁'.name = t₂'.name) :
    sh₁ = sh₂ ∧ t₁ = t₂ :=
  ht₁.unique ht₂ (h₁.name_inj h.snapshot.canonical h.oneLine ht₁.mem_keys ht₂.mem_keys h₂ hname)

/-- **No name is entered twice**, in one shard or in two. -/
theorem Setting.nodup_entered {order : List String} (hnodup : order.Nodup)
    (horder : ∀ sh ∈ order, sh ∈ (shardsOf idx).keys) :
    ((order.flatMap (entered py p snap (shardsOf idx))).map Prod.fst).Nodup := by
  rw [List.map_flatMap, List.nodup_flatMap]
  constructor
  · intro sh hsh
    obtain ⟨hdr, ts, hout, -, hnames, -⟩ :=
      exists_outTensors h.snapshot h.oneLine h.lists h.keeps (horder sh hsh)
    rw [entered, hout, List.map_map]
    exact hnames
  · refine hnodup.imp_of_mem fun {sh sh'} hsh hsh' hne nm hnm hnm' => hne ?_
    -- one name in two shards would come from one tensor of the source
    obtain ⟨e, he, rfl⟩ := List.mem_map.mp hnm
    obtain ⟨e', he', hname⟩ := List.mem_map.mp hnm'
    obtain ⟨-, t₁, t₁', ht₁, hb₁, hn₁⟩ := (h.mem_entered (horder sh hsh) e).mp he
    obtain ⟨-, t₂, t₂', ht₂, hb₂, hn₂⟩ := (h.mem_entered (horder sh' hsh') e').mp he'
    exact (h.unique ht₁ ht₂ hb₁ hb₂ (by rw [hn₁, hn₂, hname])).1

variable {order : List String} {before after : Progress J}

/-- **The index after the loop**: the names of what becomes of the snapshot's tensors. -/
theorem Setting.get?_newIndex (hnodup : order.Nodup)
    (horder : ∀ sh, sh ∈ order ↔ sh ∈ (shardsOf idx).keys)
    (hran : Ran py p snap (shardsOf idx) order before after)
    (hbefore : before.newIndex = Dict.empty) (nm sh : String) :
    after.newIndex.get? nm = some sh ↔
      ∃ t t', HasTensor py.codec snap idx sh t ∧
        Becomes py.decimals idx.keys e0 kept t t' ∧ t'.name = nm := by
  rw [hran.index, hbefore, ← Dict.ofPairs,
    Dict.get?_ofPairs (h.nodup_entered hnodup fun sh hsh => (horder sh).mp hsh), List.mem_flatMap]
  constructor
  · rintro ⟨sh', hsh', he⟩
    obtain ⟨rfl, hrest⟩ := (h.mem_entered ((horder sh').mp hsh') (nm, sh)).mp he
    exact hrest
  · rintro ⟨t, t', ht, hrest⟩
    have hsh : sh ∈ (shardsOf idx).keys := mem_keys_shardsOf.mpr ⟨t.name, ht.1⟩
    exact ⟨sh, (horder sh).mpr hsh, (h.mem_entered hsh (nm, sh)).mpr ⟨rfl, t, t', ht, hrest⟩⟩

/-- **A written shard** reads as what becomes of its tensors. -/
theorem Setting.exists_file (horder : ∀ sh, sh ∈ order ↔ sh ∈ (shardsOf idx).keys)
    (hran : Ran py p snap (shardsOf idx) order before after)
    (hjson : ∀ sh hdr ts, outTensors py p snap (shardsOf idx) sh = some (hdr, ts) →
      py.codec.loads (py.codec.dumps (buildHeader ts (metadataOf hdr))) =
        some (buildHeader ts (metadataOf hdr)))
    {sh : String} {t t' : TensorRecord} (ht : HasTensor py.codec snap idx sh t)
    (hbecomes : Becomes py.decimals idx.keys e0 kept t t') :
    ∃ file, after.out.get? sh = some (.bytes file) ∧
      (∀ t t', HasTensor py.codec snap idx sh t → Becomes py.decimals idx.keys e0 kept t t' →
        readTensorBytes py.codec file t'.name = some (t'.bytes, t'.dtype, t'.shape)) ∧
      ∀ nm data, readTensorBytes py.codec file nm = some data →
        ∃ t t', HasTensor py.codec snap idx sh t ∧
          Becomes py.decimals idx.keys e0 kept t t' ∧ t'.name = nm := by
  have hsh : sh ∈ (shardsOf idx).keys := mem_keys_shardsOf.mpr ⟨t.name, ht.1⟩
  obtain ⟨hdr, ts, hout, hts, hnames, hmeta⟩ :=
    exists_outTensors h.snapshot h.oneLine h.lists h.keeps hsh
  have hne : ts ≠ [] := List.ne_nil_of_mem ((hts t').mpr ⟨t, ht, hbecomes⟩)
  obtain ⟨file, hfile, hget⟩ := hran.written sh hdr ts ((horder sh).mpr hsh) hout hne
  have hloads := hjson sh hdr ts hout
  refine ⟨file, hget, fun t₁ t₁' ht₁ hb₁ => ?_, fun nm data hread => ?_⟩
  · exact readTensorBytes_written hnames hmeta hloads hfile ((hts t₁').mpr ⟨t₁, ht₁, hb₁⟩)
  · have hmem := mem_names_of_readTensorBytes hnames hmeta hloads hfile hread
    obtain ⟨t₁', ht₁', rfl⟩ := List.mem_map.mp hmem
    obtain ⟨t₁, ht₁, hb₁⟩ := (hts t₁').mp ht₁'
    exact ⟨t₁, t₁', ht₁, hb₁, rfl⟩

/-- **The directory after the loop**, with the index and the configuration written and the
other files copied, is a pruned model. -/
theorem Setting.pruned (hnodup : order.Nodup)
    (horder : ∀ sh, sh ∈ order ↔ sh ∈ (shardsOf idx).keys)
    (hran : Ran py p snap (shardsOf idx) order before after)
    (hbefore : before.newIndex = Dict.empty)
    (hjson : ∀ sh hdr ts, outTensors py p snap (shardsOf idx) sh = some (hdr, ts) →
      py.codec.loads (py.codec.dumps (buildHeader ts (metadataOf hdr))) =
        some (buildHeader ts (metadataOf hdr)))
    {entries : Dict String J} (hnum : entries.get? "num_experts" = some (py.number n))
    (hrouted : entries.get? "n_routed_experts" = some (py.number n)) :
    Pruned py snap idx e0 n kept
      (copyOthers snap ((after.out.set indexName (.index after.total after.newIndex)).set
        configName (.config entries))) after.total after.newIndex := by
  have hindexed := h.get?_newIndex hnodup horder hran hbefore
  -- what stands in the directory under the three kinds of names
  have hindexFile : isOther indexName = false := by simp [isOther]
  have hconfigFile : isOther configName = false := by simp [isOther]
  have hne : indexName ≠ configName := by simp [indexName, configName]
  have hshard : ∀ nm sh, idx.get? nm = some sh →
      (copyOthers snap ((after.out.set indexName (.index after.total after.newIndex)).set
        configName (.config entries))).get? sh = after.out.get? sh :=
    fun nm sh hsh => get?_shard (h.snapshot.shard nm sh hsh)
  have hhas : ∀ sh t t', HasTensor py.codec snap idx sh t →
      Becomes py.decimals idx.keys e0 kept t t' →
        HasTensor py.codec (copyOthers snap ((after.out.set indexName
          (.index after.total after.newIndex)).set configName (.config entries)))
          after.newIndex sh t' := by
    intro sh t t' ht hb
    obtain ⟨file, hfile, hread, -⟩ := h.exists_file horder hran hjson ht hb
    exact ⟨(hindexed _ _).mpr ⟨t, t', ht, hb, rfl⟩, file,
      (hshard t.name sh ht.1).trans hfile, hread t t' ht hb⟩
  refine ⟨?_, ⟨entries, ?_, hnum, hrouted⟩, fun sh t' => ⟨fun ht' => ?_, ?_⟩, ?_, ?_, ?_⟩
  · rw [get?_copyOthers hindexFile, Dict.get?_set, if_neg hne, Dict.get?_set, if_pos rfl]
  · rw [get?_copyOthers hconfigFile, Dict.get?_set, if_pos rfl]
  · obtain ⟨t, t₂', ht, hb, hname⟩ := (hindexed _ _).mp ht'.1
    obtain rfl := ((hhas sh t t₂' ht hb).unique ht' hname).2
    exact ⟨t, ht, hb⟩
  · rintro ⟨t, ht, hb⟩
    exact hhas sh t t' ht hb
  · intro nm sh hnm
    obtain ⟨t, t', ht, hb, hname⟩ := (hindexed nm sh).mp hnm
    exact ⟨t', hname, hhas sh t t' ht hb⟩
  · intro nm sh file nm' data hnm hfile hread
    obtain ⟨t, t', ht, hb, -⟩ := (hindexed nm sh).mp hnm
    obtain ⟨file', hfile', -, honly⟩ := h.exists_file horder hran hjson ht hb
    rw [hshard t.name sh ht.1, hfile'] at hfile
    obtain rfl : file' = file := by simpa using hfile
    exact (hindexed nm' sh).mpr (honly nm' data hread)
  · exact fun sh₁ sh₂ t₁ t₂ t₁' t₂' ht₁ ht₂ hb₁ hb₂ hname => (h.unique ht₁ ht₂ hb₁ hb₂ hname).2

end

end

/-- Without a MoE layer `build` fails. -/
theorem build_eq_none_of_dense {J : Type} (py : Python J) (select : ℕ → ℕ → List ℕ)
    {snap : Directory J} (out : Directory J) {idx : Dict String String} {total : ℕ}
    (hindex : snap.get? indexName = some (.index total idx))
    (hdense : ∀ L, ¬ MoeLayer py.decimals idx.keys L) : build py select snap out = none := by
  have hkeys : (expertCounts py.decimals idx.keys).keys = [] :=
    List.eq_nil_iff_forall_not_mem.mpr fun L hL => hdense L (mem_keys_expertCounts.mp hL)
  have hplan : plan py.decimals select idx = none := by
    rw [plan, hkeys]
    rfl
  rw [build, hindex]
  split
  · next heq _ =>
    obtain ⟨-, rfl⟩ := SnapFile.index.inj (Option.some.inj heq)
    rw [hplan]
    rfl
  · rfl

/-- A run of `build`: what its plan assumes, the loop over the shards, and the directory it
ends in. -/
structure BuildRun {J : Type} (py : Python J) (snap out out' : Directory J)
    (idx : Dict String String) (e0 n : ℕ) (kept : ℕ → List ℕ) (p : Plan) (order : List String)
    (after : Progress J) : Prop where
  setting : Setting py snap idx e0 n kept p
  nodup : order.Nodup
  shards : ∀ sh, sh ∈ order ↔ sh ∈ (shardsOf idx).keys
  loop : order.foldlM (pruneShard py p snap (shardsOf idx)) ⟨out, Dict.empty, 0⟩ = some after
  ran : Ran py p snap (shardsOf idx) order ⟨out, Dict.empty, 0⟩ after
  json : ∀ sh hdr ts, outTensors py p snap (shardsOf idx) sh = some (hdr, ts) →
    py.codec.loads (py.codec.dumps (buildHeader ts (metadataOf hdr))) =
      some (buildHeader ts (metadataOf hdr))
  result : ∃ entries, entries.get? "num_experts" = some (py.number n) ∧
    entries.get? "n_routed_experts" = some (py.number n) ∧
    out' = copyOthers snap ((after.out.set indexName (.index after.total after.newIndex)).set
      configName (.config entries))

theorem BuildRun.pruned {J : Type} {py : Python J} {snap out out' : Directory J}
    {idx : Dict String String} {e0 n : ℕ} {kept : ℕ → List ℕ} {p : Plan} {order : List String}
    {after : Progress J} (h : BuildRun py snap out out' idx e0 n kept p order after) :
    Pruned py snap idx e0 n kept out' after.total after.newIndex := by
  obtain ⟨entries, hnum, hrouted, rfl⟩ := h.result
  exact h.setting.pruned h.nodup h.shards h.ran rfl h.json hnum hrouted

/-- **`build` runs through**, unless a header does not fit a length of 64 bits. -/
theorem exists_buildRun {J : Type} (py : Python J) {select : ℕ → ℕ → List ℕ} {snap : Directory J}
    (out : Directory J) {idx : Dict String String} {e0 n : ℕ} (hsnap : WellFormed py snap idx e0)
    (hline : OneLine py.decimals idx) (hmoe : ∃ L, MoeLayer py.decimals idx.keys L)
    (hkeep : ∀ L, MoeLayer py.decimals idx.keys L → KeepList e0 n (select e0 L))
    (hjson : ∀ header, Writes py select snap idx header →
      py.codec.loads (py.codec.dumps header) = some header) :
    (∃ header, Writes py select snap idx header ∧ 2 ^ 64 ≤ (py.codec.dumps header).length) ∨
    ∃ out' p order after, build py select snap out = some out' ∧
      BuildRun py snap out out' idx e0 n (select e0) p order after := by
  obtain ⟨p, hp, hkeeps⟩ := exists_plan hmoe hsnap.experts fun L hL => (hkeep L hL).length
  have h : Setting py snap idx e0 n (select e0) p := ⟨hsnap, hline, hkeep, hkeeps⟩
  have hperm := List.perm_insertionSort (· ≤ ·) (shardsOf idx).keys
  have hnodup : ((shardsOf idx).keys.insertionSort (· ≤ ·)).Nodup :=
    hperm.nodup_iff.mpr (shardsOf idx).nodup
  have hout : ∀ sh ∈ (shardsOf idx).keys.insertionSort (· ≤ ·),
      ∃ hdr ts, outTensors py p snap (shardsOf idx) sh = some (hdr, ts) := by
    intro sh hsh
    obtain ⟨hdr, ts, hts, -⟩ := exists_outTensors hsnap hline hkeep hkeeps (hperm.mem_iff.mp hsh)
    exact ⟨hdr, ts, hts⟩
  -- the loop goes through every shard, or stops at a header that is too long
  rcases foldlM_pruneShard hnodup hout ⟨out, Dict.empty, 0⟩ with
    ⟨sh, hdr, ts, hts, hfail⟩ | ⟨after, hloop, hran⟩
  · exact Or.inl ⟨_, ⟨p, sh, hdr, ts, hp, hts, rfl⟩, writeSafetensors_eq_none_iff.mp hfail⟩
  · obtain ⟨total, hindex⟩ := hsnap.index
    obtain ⟨entries, hconfig⟩ := hsnap.config
    have hrouted : ((entries.set "num_experts" (py.number n)).set "n_routed_experts"
        (py.number n)).get? "n_routed_experts" = some (py.number n) := by
      rw [Dict.get?_set, if_pos rfl]
    have hnum : ((entries.set "num_experts" (py.number n)).set "n_routed_experts"
        (py.number n)).get? "num_experts" = some (py.number n) := by
      rw [Dict.get?_set, if_neg (by simp), Dict.get?_set, if_pos rfl]
    refine Or.inr ⟨_, p, _, after, ?_, h, hnodup, fun sh => hperm.mem_iff, hloop, hran,
      fun sh hdr ts hts => hjson _ ⟨p, sh, hdr, ts, hp, hts, rfl⟩, _, hnum, hrouted, rfl⟩
    simp only [build, hindex, hconfig, hp, hloop, hkeeps.count, Option.bind_eq_bind,
      Option.bind_some]

/-- **Pruning.** For a snapshot with MoE layers and names of experts on one line, and a
keep list of `n` distinct experts for every MoE layer, `build` writes a pruned model,
unless a header does not fit a length of 64 bits. -/
theorem build_prunes {J : Type} (py : Python J) {select : ℕ → ℕ → List ℕ} {snap : Directory J}
    (out : Directory J) {idx : Dict String String} {e0 n : ℕ} (hsnap : WellFormed py snap idx e0)
    (hline : OneLine py.decimals idx) (hmoe : ∃ L, MoeLayer py.decimals idx.keys L)
    (hkeep : ∀ L, MoeLayer py.decimals idx.keys L → KeepList e0 n (select e0 L))
    (hjson : ∀ header, Writes py select snap idx header →
      py.codec.loads (py.codec.dumps header) = some header) :
    (∃ header, Writes py select snap idx header ∧ 2 ^ 64 ≤ (py.codec.dumps header).length) ∨
    ∃ out' total weightMap, build py select snap out = some out' ∧
      Pruned py snap idx e0 n (select e0) out' total weightMap := by
  rcases exists_buildRun py out hsnap hline hmoe hkeep hjson with hlong | ⟨out', p, order, after,
    hbuild, hrun⟩
  · exact Or.inl hlong
  · exact Or.inr ⟨out', after.total, after.newIndex, hbuild, hrun.pruned⟩

/-! ### Snapshots that are written -/

/-- The index of tensors in shards. -/
def indexOfShards (shards : List (String × List TensorRecord)) : Dict String String :=
  Dict.ofPairs (shards.flatMap fun s => s.2.map fun t => (t.name, s.1))

/-- A snapshot, the tensors of each shard as `write_safetensors` writes them. -/
def shardedSnapshot {J : Type} (py : Python J) (shards : List (String × List TensorRecord)) :
    Directory J :=
  Dict.ofPairs ((indexName, .index (shards.map fun s => totalBytes s.2).sum
      (indexOfShards shards)) :: (configName, .config Dict.empty) ::
    shards.map fun s => (s.1, .bytes ((writeSafetensors py.codec s.2 none).getD [])))

/-- The shard's name. -/
def shardName : String := "model.safetensors"

/-- The index of tensors in one shard. -/
def indexOf (tensors : List TensorRecord) : Dict String String :=
  indexOfShards [(shardName, tensors)]

/-- A snapshot with one shard. -/
def oneShard {J : Type} (py : Python J) (tensors : List TensorRecord) : Directory J :=
  shardedSnapshot py [(shardName, tensors)]

/-- Shards that can be written and read: distinct names, headers that JSON gives back, and
lengths that fit. -/
structure Storable {J : Type} (codec : HeaderCodec J)
    (shards : List (String × List TensorRecord)) : Prop where
  files : (shards.map Prod.fst).Nodup
  suffix : ∀ s ∈ shards, ".safetensors".toList <:+ s.1.toList
  names : (shards.flatMap fun s => s.2.map TensorRecord.name).Nodup
  reserved : ∀ s ∈ shards, metadataKey ∉ s.2.map TensorRecord.name
  json : ∀ s ∈ shards, codec.loads (codec.dumps (buildHeader s.2 none)) =
    some (buildHeader s.2 none)
  fits : ∀ s ∈ shards, (codec.dumps (buildHeader s.2 none)).length < 2 ^ 64

section
variable {J : Type} {py : Python J} {shards : List (String × List TensorRecord)}

theorem get?_indexOfShards (h : Storable py.codec shards) (nm sh : String) :
    (indexOfShards shards).get? nm = some sh ↔ ∃ ts, (sh, ts) ∈ shards ∧ ∃ t ∈ ts, t.name = nm := by
  have hfst : (shards.flatMap fun s => s.2.map fun t => (t.name, s.1)).map Prod.fst =
      shards.flatMap fun s => s.2.map TensorRecord.name := by
    rw [List.map_flatMap]
    simp only [List.map_map, Function.comp_def]
  rw [indexOfShards, Dict.get?_ofPairs (by rw [hfst]; exact h.names)]
  simp only [List.mem_flatMap, List.mem_map, Prod.mk.injEq, Prod.exists]
  constructor
  · rintro ⟨sh', ts, hs, t, ht, rfl, rfl⟩
    exact ⟨ts, hs, t, ht, rfl⟩
  · rintro ⟨ts, hs, t, ht, rfl⟩
    exact ⟨sh, ts, hs, t, ht, rfl, rfl⟩

theorem get?_shardedSnapshot (h : Storable py.codec shards) (f : String) (content : SnapFile J) :
    (shardedSnapshot py shards).get? f = some content ↔
      (f = indexName ∧ content = .index (shards.map fun s => totalBytes s.2).sum
        (indexOfShards shards)) ∨
      (f = configName ∧ content = .config Dict.empty) ∨
      ∃ ts, (f, ts) ∈ shards ∧ content = .bytes ((writeSafetensors py.codec ts none).getD []) := by
  have hother : ∀ f ∈ shards.map Prod.fst, f ≠ indexName ∧ f ≠ configName := by
    intro f hf
    obtain ⟨s, hs, rfl⟩ := List.mem_map.mp hf
    have hsuffix := h.suffix s hs
    constructor <;> intro hname <;> rw [hname] at hsuffix <;> revert hsuffix <;> decide
  have hnodup : (indexName :: configName :: shards.map Prod.fst).Nodup := by
    refine List.nodup_cons.mpr ⟨fun hin => ?_, List.nodup_cons.mpr
      ⟨fun hin => (hother _ hin).2 rfl, h.files⟩⟩
    rcases List.mem_cons.mp hin with hname | hin
    · exact absurd hname (by decide)
    · exact (hother _ hin).1 rfl
  rw [shardedSnapshot, Dict.get?_ofPairs (by simpa [Function.comp_def] using hnodup)]
  simp only [List.mem_cons, Prod.mk.injEq, List.mem_map, Prod.exists]
  refine or_congr_right (or_congr_right ⟨?_, ?_⟩)
  · rintro ⟨f', ts, hs, rfl, rfl⟩
    exact ⟨ts, hs, rfl⟩
  · rintro ⟨ts, hs, rfl⟩
    exact ⟨f, ts, hs, rfl, rfl⟩

/-- A file's tensors are those of one shard. -/
theorem Storable.unique (h : Storable py.codec shards) {sh : String} {ts ts' : List TensorRecord}
    (hs : (sh, ts) ∈ shards) (hs' : (sh, ts') ∈ shards) : ts = ts' :=
  congrArg Prod.snd (List.inj_on_of_nodup_map h.files hs hs' rfl)

theorem Storable.nodup (h : Storable py.codec shards) {sh : String} {ts : List TensorRecord}
    (hs : (sh, ts) ∈ shards) : (ts.map TensorRecord.name).Nodup :=
  (List.nodup_flatMap.mp h.names).1 _ hs

/-- The shards are written. -/
theorem exists_file_shardedSnapshot (h : Storable py.codec shards) {sh : String}
    {ts : List TensorRecord} (hs : (sh, ts) ∈ shards) :
    ∃ file, writeSafetensors py.codec ts none = some file ∧
      (shardedSnapshot py shards).get? sh = some (.bytes file) := by
  obtain ⟨file, hfile⟩ := Option.ne_none_iff_exists'.mp
    (mt writeSafetensors_eq_none_iff.mp (Nat.not_le.mpr (h.fits _ hs)))
  have hshard := (get?_shardedSnapshot h sh _).mpr (Or.inr (Or.inr ⟨ts, hs, rfl⟩))
  rw [hfile, Option.getD_some] at hshard
  exact ⟨file, hfile, hshard⟩

/-- The shards have their tensors, and no others. -/
theorem hasTensor_shardedSnapshot_iff (h : Storable py.codec shards) (sh : String)
    (t : TensorRecord) :
    HasTensor py.codec (shardedSnapshot py shards) (indexOfShards shards) sh t ↔
      ∃ ts, (sh, ts) ∈ shards ∧ t ∈ ts := by
  have hhas : ∀ sh ts, (sh, ts) ∈ shards → ∀ t ∈ ts,
      HasTensor py.codec (shardedSnapshot py shards) (indexOfShards shards) sh t := by
    intro sh ts hs t ht
    obtain ⟨file, hfile, hshard⟩ := exists_file_shardedSnapshot h hs
    exact ⟨(get?_indexOfShards h _ _).mpr ⟨ts, hs, t, ht, rfl⟩, file, hshard,
      readTensorBytes_written (h.nodup hs) (h.reserved _ hs) (h.json _ hs) hfile ht⟩
  constructor
  · intro ht
    obtain ⟨ts, hs, t', ht', hname⟩ := (get?_indexOfShards h _ _).mp ht.1
    exact ⟨ts, hs, ((hhas sh ts hs t' ht').unique ht hname).2 ▸ ht'⟩
  · rintro ⟨ts, hs, ht⟩
    exact hhas sh ts hs t ht

/-- **Storable shards make a snapshot.** -/
theorem wellFormed_shardedSnapshot (h : Storable py.codec shards) {e0 : ℕ}
    (hcanon : ∀ s ∈ shards, ∀ t ∈ s.2, ∀ m, expertMatch py.decimals t.name = some m →
      m.Canonical py.decimals)
    (hexperts : ∀ L, MoeLayer py.decimals (indexOfShards shards).keys L →
      CountOf (ExpertOf py.decimals (indexOfShards shards).keys L) e0)
    (hrouters : ∀ s ∈ shards, ∀ t ∈ s.2, ∀ layer, router py.decimals t.name = some layer →
      t.shape.head? = some e0 ∧ e0 ∣ t.bytes.length) :
    WellFormed py (shardedSnapshot py shards) (indexOfShards shards) e0 where
  index := ⟨_, (get?_shardedSnapshot h indexName _).mpr (Or.inl ⟨rfl, rfl⟩)⟩
  config := ⟨_, (get?_shardedSnapshot h configName _).mpr (Or.inr (Or.inl ⟨rfl, rfl⟩))⟩
  shard nm sh hsh := by
    obtain ⟨ts, hs, -⟩ := (get?_indexOfShards h nm sh).mp hsh
    exact h.suffix _ hs
  tensor nm sh hsh := by
    obtain ⟨ts, hs, t, ht, rfl⟩ := (get?_indexOfShards h nm sh).mp hsh
    exact ⟨t, rfl, (hasTensor_shardedSnapshot_iff h _ t).mpr ⟨ts, hs, ht⟩⟩
  reserved sh file hdr ds info hfile hhdr hinfo := by
    rcases (get?_shardedSnapshot h sh _).mp hfile with ⟨-, hcontent⟩ | ⟨-, hcontent⟩ | ⟨ts, hs, -⟩
    · cases hcontent
    · cases hcontent
    · obtain ⟨file', hwritten, hshard⟩ := exists_file_shardedSnapshot h hs
      obtain rfl : file' = file := by simpa [hshard] using hfile
      -- the header read is the one written, whose keys are the tensors' names
      obtain ⟨rfl, -⟩ := Prod.mk.inj (Option.some.inj
        ((parseHeader_written (h.json _ hs) hwritten).symm.trans hhdr))
      rw [Dict.get?_eq_some, entries_buildHeader (h.nodup hs) (h.reserved _ hs)] at hinfo
      refine h.reserved _ hs ?_
      rw [← map_fst_entriesFrom (V := J) 0]
      exact List.mem_map_of_mem hinfo
  canonical nm hnm m hm := by
    obtain ⟨sh, hsh⟩ := Dict.mem_keys_iff.mp hnm
    obtain ⟨ts, hs, t, ht, rfl⟩ := (get?_indexOfShards h nm sh).mp hsh
    exact hcanon _ hs t ht m hm
  experts := hexperts
  routers sh t layer ht hlayer _ := by
    obtain ⟨ts, hs, hmem⟩ := (hasTensor_shardedSnapshot_iff h sh t).mp ht
    exact hrouters _ hs t hmem layer hlayer

theorem expertOf_indexOfShards (h : Storable py.codec shards) (dec : Decimals) (L e : ℕ) :
    ExpertOf dec (indexOfShards shards).keys L e ↔
      ∃ s ∈ shards, ∃ t ∈ s.2, ∃ m, expertMatch dec t.name = some m ∧ dec.int m.layer = L ∧
        dec.int m.expert = e := by
  constructor
  · rintro ⟨nm, hnm, hrest⟩
    obtain ⟨sh, hsh⟩ := Dict.mem_keys_iff.mp hnm
    obtain ⟨ts, hs, t, ht, rfl⟩ := (get?_indexOfShards h nm sh).mp hsh
    exact ⟨_, hs, t, ht, hrest⟩
  · rintro ⟨⟨sh, ts⟩, hs, t, ht, hrest⟩
    exact ⟨t.name, Dict.mem_keys_iff.mpr ⟨sh, (get?_indexOfShards h _ _).mpr
      ⟨ts, hs, t, ht, rfl⟩⟩, hrest⟩

/-- A shard that is read is one of the list. -/
theorem Storable.mem_of_outTensors (h : Storable py.codec shards) {p : Plan} {snap : Directory J}
    {sh : String} {r : Header J × List TensorRecord}
    (hts : outTensors py p snap (shardsOf (indexOfShards shards)) sh = some r) :
    sh ∈ shards.map Prod.fst := by
  obtain ⟨nm, hnm⟩ := mem_keys_shardsOf.mp (mem_keys_of_outTensors hts)
  obtain ⟨ts, hs, -⟩ := (get?_indexOfShards h nm sh).mp hnm
  exact List.mem_map_of_mem hs

end

section
variable {J : Type} {py : Python J} {tensors : List TensorRecord}

theorem storable_one {codec : HeaderCodec J} (hnames : (tensors.map TensorRecord.name).Nodup)
    (hmeta : metadataKey ∉ tensors.map TensorRecord.name)
    (hjson : codec.loads (codec.dumps (buildHeader tensors none)) =
      some (buildHeader tensors none))
    (hfits : (codec.dumps (buildHeader tensors none)).length < 2 ^ 64) :
    Storable codec [(shardName, tensors)] where
  files := List.nodup_singleton shardName
  suffix := by
    simp only [List.mem_singleton, forall_eq]
    decide
  names := by simpa using hnames
  reserved := by simpa using hmeta
  json := by simpa using hjson
  fits := by simpa using hfits

/-- The tensors of a snapshot of one shard. -/
theorem hasTensor_oneShard (h : Storable py.codec [(shardName, tensors)]) {t : TensorRecord}
    (ht : t ∈ tensors) :
    HasTensor py.codec (oneShard py tensors) (indexOf tensors) shardName t :=
  (hasTensor_shardedSnapshot_iff h shardName t).mpr ⟨tensors, List.mem_singleton_self _, ht⟩

theorem expertOf_indexOf (h : Storable py.codec [(shardName, tensors)]) (dec : Decimals)
    (L e : ℕ) : ExpertOf dec (indexOf tensors).keys L e ↔ ∃ t ∈ tensors, ∃ m,
      expertMatch dec t.name = some m ∧ dec.int m.layer = L ∧ dec.int m.expert = e := by
  rw [indexOf, expertOf_indexOfShards h]
  simp only [List.mem_singleton, exists_eq_left]

theorem wellFormed_oneShard (h : Storable py.codec [(shardName, tensors)]) {e0 : ℕ}
    (hcanon : ∀ t ∈ tensors, ∀ m, expertMatch py.decimals t.name = some m →
      m.Canonical py.decimals)
    (hexperts : ∀ L, MoeLayer py.decimals (indexOf tensors).keys L →
      CountOf (ExpertOf py.decimals (indexOf tensors).keys L) e0)
    (hrouters : ∀ t ∈ tensors, ∀ layer, router py.decimals t.name = some layer →
      t.shape.head? = some e0 ∧ e0 ∣ t.bytes.length) :
    WellFormed py (oneShard py tensors) (indexOf tensors) e0 :=
  wellFormed_shardedSnapshot h (by simpa using hcanon) hexperts (by simpa using hrouters)

end

/-- JSON, as far as two headers of different lengths go. -/
def textCodec (h₁ h₂ : Header String) (json₁ json₂ : List UInt8) : HeaderCodec String where
  dumps h := if h.entries.length = h₁.entries.length then json₁ else json₂
  loads bytes := if bytes = json₁ then some h₁ else if bytes = json₂ then some h₂ else none

theorem textCodec_first (h₁ h₂ : Header String) (json₁ json₂ : List UInt8) :
    (textCodec h₁ h₂ json₁ json₂).loads ((textCodec h₁ h₂ json₁ json₂).dumps h₁) = some h₁ := by
  simp [textCodec]

theorem textCodec_second {h₁ h₂ : Header String} {json₁ json₂ : List UInt8}
    (hlength : h₂.entries.length ≠ h₁.entries.length) (hjson : json₂ ≠ json₁) :
    (textCodec h₁ h₂ json₁ json₂).loads ((textCodec h₁ h₂ json₁ json₂).dumps h₂) = some h₂ := by
  simp [textCodec, hlength, hjson]

/-- The bytes of a JSON text. -/
def jsonBytes (text : String) : List UInt8 := text.toUTF8.data.toList

/-- Two experts and a router of layer 0. -/
def sampleSource : List TensorRecord :=
  [⟨expertName 0 0 ['w'], "U8", [1], [10]⟩, ⟨expertName 0 1 ['w'], "U8", [1], [11]⟩,
   ⟨"model.layers.0.mlp.gate.weight", "U8", [2, 1], [20, 21]⟩]

/-- What is left when expert 1 is kept. -/
def samplePruned : List TensorRecord :=
  [⟨expertName 0 0 ['w'], "U8", [1], [11]⟩,
   ⟨"model.layers.0.mlp.gate.weight", "U8", [1, 1], [21]⟩]

def samplePython : Python String where
  decimals := .ascii
  codec := textCodec (buildHeader sampleSource none) (buildHeader samplePruned none)
    (jsonBytes <| "\x7b\"model.layers.0.mlp.experts.0.w\": " ++
      "\x7b\"dtype\": \"U8\", \"shape\": [1], \"data_offsets\": [0, 1]\x7d, " ++
      "\"model.layers.0.mlp.experts.1.w\": " ++
      "\x7b\"dtype\": \"U8\", \"shape\": [1], \"data_offsets\": [1, 2]\x7d, " ++
      "\"model.layers.0.mlp.gate.weight\": " ++
      "\x7b\"dtype\": \"U8\", \"shape\": [2, 1], \"data_offsets\": [2, 4]\x7d\x7d")
    (jsonBytes <| "\x7b\"model.layers.0.mlp.experts.0.w\": " ++
      "\x7b\"dtype\": \"U8\", \"shape\": [1], \"data_offsets\": [0, 1]\x7d, " ++
      "\"model.layers.0.mlp.gate.weight\": " ++
      "\x7b\"dtype\": \"U8\", \"shape\": [1, 1], \"data_offsets\": [1, 2]\x7d\x7d")
  number := toString

theorem sampleSource_storable : Storable samplePython.codec [(shardName, sampleSource)] :=
  storable_one (by decide) (by decide) (textCodec_first _ _ _ _) (by decide +kernel)

theorem sample_expertMatch (e : ℕ) :
    expertMatch samplePython.decimals (expertName 0 e ['w']) =
      some ⟨Nat.toDigits 10 0, Nat.toDigits 10 e, ['w']⟩ :=
  expertMatch_expertName 0 e (by decide) (by decide)

theorem sample_router :
    router samplePython.decimals "model.layers.0.mlp.gate.weight" = some ['0'] := by
  decide

/-- The sample has the experts 0 and 1 of layer 0. -/
theorem sample_expertOf (L e : ℕ) :
    ExpertOf samplePython.decimals (indexOf sampleSource).keys L e ↔ L = 0 ∧ (e = 0 ∨ e = 1) := by
  rw [expertOf_indexOf sampleSource_storable]
  simp only [sampleSource, List.exists_mem_cons_iff, List.not_mem_nil, false_and, exists_false,
    or_false, sample_expertMatch, expertMatch_of_router sample_router, Option.some.injEq,
    reduceCtorEq, exists_eq_left', int_toDigits]
  omega

theorem sample_wellFormed :
    WellFormed samplePython (oneShard samplePython sampleSource) (indexOf sampleSource) 2 := by
  refine wellFormed_oneShard sampleSource_storable ?_ ?_ ?_
  · intro t ht m hm
    simp only [sampleSource, List.mem_cons, List.not_mem_nil, or_false] at ht
    rcases ht with rfl | rfl | rfl
    · rw [sample_expertMatch] at hm
      exact Option.some.inj hm ▸ canonical_toDigits 0 0 ['w']
    · rw [sample_expertMatch] at hm
      exact Option.some.inj hm ▸ canonical_toDigits 0 1 ['w']
    · exact (not_router_of_expert hm sample_router).elim
  · rintro L ⟨e, he⟩
    obtain ⟨rfl, -⟩ := (sample_expertOf L e).mp he
    refine ⟨fun e he => ?_, 1, (sample_expertOf 0 1).mpr ⟨rfl, Or.inr rfl⟩, rfl⟩
    have := (sample_expertOf 0 e).mp he
    omega
  · intro t ht layer hlayer
    simp only [sampleSource, List.mem_cons, List.not_mem_nil, or_false] at ht
    rcases ht with rfl | rfl | rfl
    · exact (not_router_of_expert (sample_expertMatch 0) hlayer).elim
    · exact (not_router_of_expert (sample_expertMatch 1) hlayer).elim
    · exact ⟨rfl, by decide⟩

/-- The one header that is written for the sample. -/
theorem sample_writes {header : Header String}
    (h : Writes samplePython (fun _ _ => [1]) (oneShard samplePython sampleSource)
      (indexOf sampleSource) header) : header = buildHeader samplePruned none := by
  obtain ⟨p, sh, hdr, ts, hp, hts, rfl⟩ := h
  have hsh : sh = shardName :=
    List.mem_singleton.mp (sampleSource_storable.mem_of_outTensors hts)
  have hrun : ((plan samplePython.decimals (fun _ _ => [1]) (indexOf sampleSource)).bind fun p =>
      (outTensors samplePython p (oneShard samplePython sampleSource)
        (shardsOf (indexOf sampleSource)) shardName).map fun r =>
          (r.2, (metadataOf r.1).isNone)) = some (samplePruned, true) := by
    decide +kernel
  rw [hp, Option.bind_some, ← hsh, hts, Option.map_some, Option.some.injEq, Prod.mk.injEq,
    Option.isNone_iff_eq_none] at hrun
  dsimp only at hrun
  rw [hrun.1, hrun.2]

/-- Expert 1 of two is kept. -/
theorem build_prunes_sample : ∃ out' total weightMap,
    build samplePython (fun _ _ => [1]) (oneShard samplePython sampleSource) Dict.empty =
      some out' ∧
    Pruned samplePython (oneShard samplePython sampleSource) (indexOf sampleSource) 2 1
      (fun _ => [1]) out' total weightMap := by
  have hline : OneLine .ascii (indexOf sampleSource) := by
    unfold OneLine
    decide
  have hmoe : ∃ L, MoeLayer samplePython.decimals (indexOf sampleSource).keys L :=
    ⟨0, 0, (sample_expertOf 0 0).mpr ⟨rfl, Or.inl rfl⟩⟩
  have hjson : ∀ header, Writes samplePython (fun _ _ => [1])
      (oneShard samplePython sampleSource) (indexOf sampleSource) header →
        samplePython.codec.loads (samplePython.codec.dumps header) = some header := by
    intro header hw
    rw [sample_writes hw]
    exact textCodec_second (by decide) (by decide)
  rcases build_prunes samplePython Dict.empty sample_wellFormed hline hmoe
    (fun _ _ => ⟨rfl, by decide, by decide⟩) hjson with ⟨header, hw, hlong⟩ | hbuilt
  · rw [sample_writes hw] at hlong
    exact absurd hlong (by decide +kernel)
  · exact hbuilt

/-! ### What the statement leaves out -/

/-- A tensor of a model without experts. -/
def denseSource : List TensorRecord := [⟨"w", "U8", [1], [10]⟩]

def densePython : Python String where
  decimals := .ascii
  codec := textCodec (buildHeader denseSource none) Dict.empty
    (jsonBytes "\x7b\"w\": \x7b\"dtype\": \"U8\", \"shape\": [1], \"data_offsets\": [0, 1]\x7d\x7d")
    (jsonBytes "\x7b\x7d")
  number := toString

/-- Two tensors of one expert, whose names differ in a newline at the end. -/
def twoLineSource : List TensorRecord :=
  [⟨expertName 0 0 ['w'], "U8", [1], [10]⟩, ⟨expertName 0 0 ['w'] ++ "\n", "U8", [1], [11]⟩]

def twoLinePython : Python String where
  decimals := .ascii
  codec := textCodec (buildHeader twoLineSource none) Dict.empty
    (jsonBytes <| "\x7b\"model.layers.0.mlp.experts.0.w\": " ++
      "\x7b\"dtype\": \"U8\", \"shape\": [1], \"data_offsets\": [0, 1]\x7d, " ++
      "\"model.layers.0.mlp.experts.0.w\\n\": " ++
      "\x7b\"dtype\": \"U8\", \"shape\": [1], \"data_offsets\": [1, 2]\x7d\x7d")
    (jsonBytes "\x7b\x7d")
  number := toString

theorem denseSource_storable : Storable densePython.codec [(shardName, denseSource)] :=
  storable_one (by decide) (by decide) (textCodec_first _ _ _ _) (by decide)

theorem twoLineSource_storable : Storable twoLinePython.codec [(shardName, twoLineSource)] :=
  storable_one (by decide) (by decide) (textCodec_first _ _ _ _) (by decide +kernel)

theorem dense_expertMatch : expertMatch densePython.decimals "w" = none := by decide

theorem dense_not_moeLayer (L : ℕ) :
    ¬ MoeLayer densePython.decimals (indexOf denseSource).keys L := by
  rintro ⟨e, he⟩
  obtain ⟨t, ht, m, hm, -⟩ := (expertOf_indexOf denseSource_storable _ L e).mp he
  rw [List.mem_singleton.mp ht, dense_expertMatch] at hm
  cases hm

theorem dense_wellFormed :
    WellFormed densePython (oneShard densePython denseSource) (indexOf denseSource) 1 := by
  refine wellFormed_oneShard denseSource_storable ?_ ?_ ?_
  · intro t ht m hm
    rw [List.mem_singleton.mp ht, dense_expertMatch] at hm
    cases hm
  · exact fun L hL => absurd hL (dense_not_moeLayer L)
  · intro t ht layer hlayer
    have hnone : router densePython.decimals "w" = none := by decide
    rw [List.mem_singleton.mp ht, hnone] at hlayer
    cases hlayer

/-- Both names are of expert 0, and the newline is no part of the suffix. -/
theorem twoLine_expertMatch {t : TensorRecord} (ht : t ∈ twoLineSource) :
    expertMatch twoLinePython.decimals t.name = some ⟨['0'], ['0'], ['w']⟩ := by
  have hall : ∀ t ∈ twoLineSource,
      expertMatch twoLinePython.decimals t.name = some ⟨['0'], ['0'], ['w']⟩ := by
    decide
  exact hall t ht

theorem twoLine_expertOf (L e : ℕ) :
    ExpertOf twoLinePython.decimals (indexOf twoLineSource).keys L e ↔ L = 0 ∧ e = 0 := by
  rw [expertOf_indexOf twoLineSource_storable]
  constructor
  · rintro ⟨t, ht, m, hm, rfl, rfl⟩
    rw [twoLine_expertMatch ht] at hm
    obtain rfl := Option.some.inj hm
    decide
  · rintro ⟨rfl, rfl⟩
    exact ⟨_, List.mem_cons_self, _, twoLine_expertMatch List.mem_cons_self, rfl, rfl⟩

theorem twoLine_wellFormed :
    WellFormed twoLinePython (oneShard twoLinePython twoLineSource) (indexOf twoLineSource) 1 := by
  refine wellFormed_oneShard twoLineSource_storable ?_ ?_ ?_
  · intro t ht m hm
    rw [twoLine_expertMatch ht] at hm
    exact Option.some.inj hm ▸ ⟨by decide, by decide⟩
  · rintro L ⟨e, he⟩
    obtain ⟨rfl, -⟩ := (twoLine_expertOf L e).mp he
    exact ⟨fun e he => by rw [((twoLine_expertOf 0 e).mp he).2]; decide, e, he,
      by rw [((twoLine_expertOf 0 e).mp he).2]⟩
  · intro t ht layer hlayer
    exact (not_router_of_expert (twoLine_expertMatch ht) hlayer).elim

/-- **A model without MoE layers** is not copied: `build` fails.  **Names that end in a
newline** lose it when they are renamed, and two tensors become one. -/
theorem build_prunes_exceptions :
    (WellFormed densePython (oneShard densePython denseSource) (indexOf denseSource) 1 ∧
      (∀ L, MoeLayer densePython.decimals (indexOf denseSource).keys L → KeepList 1 1 [0]) ∧
      build densePython (fun _ _ => [0]) (oneShard densePython denseSource) Dict.empty = none) ∧
    (WellFormed twoLinePython (oneShard twoLinePython twoLineSource) (indexOf twoLineSource) 1 ∧
      (∀ L, MoeLayer twoLinePython.decimals (indexOf twoLineSource).keys L → KeepList 1 1 [0]) ∧
      ¬ ∃ out total weightMap,
        build twoLinePython (fun _ _ => [0]) (oneShard twoLinePython twoLineSource) Dict.empty =
          some out ∧
        Pruned twoLinePython (oneShard twoLinePython twoLineSource) (indexOf twoLineSource) 1 1
          (fun _ => [0]) out total weightMap) := by
  have hkeep : KeepList 1 1 [0] := ⟨rfl, by decide, by decide⟩
  refine ⟨⟨dense_wellFormed, fun L hL => absurd hL (dense_not_moeLayer L), ?_⟩,
    ⟨twoLine_wellFormed, fun _ _ => hkeep, ?_⟩⟩
  · exact build_eq_none_of_dense densePython _ _
      ((get?_shardedSnapshot denseSource_storable indexName _).mpr (Or.inl ⟨rfl, rfl⟩))
      dense_not_moeLayer
  · rintro ⟨out, total, weightMap, -, hpruned⟩
    have hhas := fun t => hasTensor_oneShard twoLineSource_storable (t := t)
    -- both names match with suffix `w`, so both tensors are renamed alike
    have hbecomes : ∀ t ∈ twoLineSource, Becomes twoLinePython.decimals
        (indexOf twoLineSource).keys 1 (fun _ => [0]) t
          { t with name := expertName (twoLinePython.decimals.int ['0']) 0 ['w'] } := by
      intro t ht
      have hplace : [0][0]? = some (twoLinePython.decimals.int ['0']) := by decide
      exact (becomes_iff_of_expert (twoLine_expertMatch ht)).mpr ⟨0, hplace, rfl⟩
    have hsame := hpruned.distinct _ _ _ _ _ _ (hhas _ List.mem_cons_self)
      (hhas _ (List.mem_cons_of_mem _ List.mem_cons_self)) (hbecomes _ List.mem_cons_self)
      (hbecomes _ (List.mem_cons_of_mem _ List.mem_cons_self)) rfl
    have hbytes := congrArg TensorRecord.bytes hsame
    simp at hbytes

end Glm52.ExpertPrune
