import Glm52.StreamingTopk

/-! # The prefill MQA logits

In prefill the keys of all requests lie in one list, and a row is scored against all of
them; the keys of its own request are a range (`cu_seqlen_ks`, `cu_seqlen_ke`).  The Triton
kernel takes a tile of eight rows and 64 keys, the torch fallback adds up chunks of heads
and keys into one buffer.  Which of them runs is decided by an environment variable.

Both leave the same logits (`prefill_backends_agree`), the streaming top-k selects from
exactly these logits (`prefill_topk_of_logits`), and the paged kernels of the decode
compute them request by request (`prefill_eq_paged`). -/
namespace Glm52.PrefillMqa
open TiledLaunch Topk PagedMqa StreamingTopk

section Definitions
variable {α : Type} [CommRing α] [LinearOrder α] (t : MqaInputs α)

/-! ### The Triton kernel -/

/-- `_fp8_mqa_logits_kernel`, lane `(i, j)` of program `(pidM, pidN)`: the cell it stores,
and the value. -/
def mqaLogitsKernel (CLEAN_LOGITS : Bool) (BLOCK_M BLOCK_N BLOCK_D pidM pidN i j : ℕ) :
    Option ((ℕ × ℕ) × WithBot α) :=
  let offsM := pidM * BLOCK_M + i
  let offsN := pidN * BLOCK_N + j
  let validM := decide (offsM < t.seqLen)
  let validN := decide (offsN < t.seqLenKv)
  let seqMask :=
    if CLEAN_LOGITS then
      let seqStart := load validM (t.cuSeqlenKs offsM)
      let seqEnd := load validM (t.cuSeqlenKe offsM)
      decide (seqStart ≤ offsN) && decide ((offsN : ℤ) < seqEnd)
    else validM && validN
  let logits := loop t.numHeads fun h =>
    let scores := loop (cdiv t.headDim BLOCK_D) fun d0 =>
      ∑ d ∈ Finset.range BLOCK_D,
        load (validM && decide (d0 * BLOCK_D + d < t.headDim)) (t.q offsM h (d0 * BLOCK_D + d)) *
          load (validN && decide (d0 * BLOCK_D + d < t.headDim))
            (t.kValues offsN (d0 * BLOCK_D + d))
    let scale := load validN (t.kScales offsN)
    let weighted := max (scores * scale) 0
    weighted * load validM (t.weights offsM h)
  let storeMask := validM && validN
  if storeMask then some ((offsM, offsN), if seqMask && storeMask then logits else ⊥) else none

/-- The stores of the launch, program by program. -/
def fp8MqaLogitsTriton (cleanLogits : Bool) : List ((ℕ × ℕ) × WithBot α) :=
  if t.seqLen = 0 ∨ t.seqLenKv = 0 then []
  else
    grid (cdiv t.seqLen 8) (cdiv t.seqLenKv 64) fun pidM pidN =>
      grid 8 64 fun i j => (mqaLogitsKernel t cleanLogits 8 64 64 pidM pidN i j).toList

/-! ### The torch fallback -/

/-- `logits[:, k_start:k_end].add_` of the weighted scores of a chunk of heads. -/
def addScores (headStart headEnd kStart kEnd : ℕ) (logits : ℕ → ℕ → α) (row p : ℕ) : α :=
  if kStart ≤ p ∧ p < kEnd then
    logits row p + ∑ h ∈ Finset.Ico headStart headEnd, headLogit t row p h
  else logits row p

/-- The loop over the keys for one chunk of heads. -/
def addHeadChunk (headStart headEnd kChunkSize : ℕ) (logits : ℕ → ℕ → α) : ℕ → ℕ → α :=
  (List.range (cdiv t.seqLenKv kChunkSize)).foldl (fun logits pass =>
    let kStart := pass * kChunkSize
    let kEnd := min (kStart + kChunkSize) t.seqLenKv
    addScores t headStart headEnd kStart kEnd logits) logits

/-- The loop over the chunks of heads; the number of keys in a chunk depends on how many
heads there are. -/
def addHeads (headChunkSize : ℕ) (kChunkSize : ℕ → ℕ) : ℕ → ℕ → α :=
  (List.range (cdiv t.numHeads headChunkSize)).foldl (fun logits pass =>
    let headStart := pass * headChunkSize
    let headEnd := min (headStart + headChunkSize) t.numHeads
    addHeadChunk t headStart headEnd (kChunkSize (headEnd - headStart)) logits) fun _ _ => 0

/-- `_fp8_mqa_logits_torch` with its chunk sizes given.  `none` is an FP4 query. -/
def mqaLogitsTorch (qScale cleanLogits : Bool) (headChunkSize : ℕ) (kChunkSize : ℕ → ℕ) :
    Option (ℕ → ℕ → WithBot α) :=
  if qScale then none
  else
    let logits := addHeads t headChunkSize kChunkSize
    some fun row p =>
      if cleanLogits && !valid t row p then ⊥ else (logits row p : WithBot α)

/-- `_fp8_mqa_logits_torch`. -/
def fp8MqaLogitsTorch (qScale cleanLogits : Bool) : Option (ℕ → ℕ → WithBot α) :=
  mqaLogitsTorch t qScale cleanLogits
    (fp8MqaLogitsHeadChunkSize t.seqLen t.seqLenKv t.numHeads)
    (fp8MqaLogitsKChunkSize t.seqLen t.seqLenKv)

/-! ### The dispatch -/

/-- `_mqa_logits_triton_enabled`, from the environment variable. -/
def mqaLogitsTritonEnabled (configured : Option String) : Bool :=
  decide ((configured.getD "1").toLower ∉ ["", "0", "false", "no", "off"])

/-- `_fp8_mqa_logits_sm12x`; `order` is the order in which the stores of the launch happen,
and a cell is `none` when none did. -/
def fp8MqaLogitsSm12x (configured : Option String)
    (order : List ((ℕ × ℕ) × WithBot α) → List ((ℕ × ℕ) × WithBot α)) (qScale cleanLogits : Bool) :
    Option (ℕ → ℕ → Option (WithBot α)) :=
  let useTriton := mqaLogitsTritonEnabled configured && !qScale
  if useTriton then
    some fun row p => run (order (fp8MqaLogitsTriton t cleanLogits)) (fun _ => none) (row, p)
  else
    (fp8MqaLogitsTorch t qScale cleanLogits).map fun logits row p => some (logits row p)

/-- `fp8_fp4_mqa_topk_indices`: `supported` is the check of the platform. -/
def fp8Fp4MqaTopkIndices (topk : ℕ → ℕ → List (WithBot α) → ℕ → List ℕ) (supported qScale : Bool)
    (indicesShape : ℕ × ℕ) (topkIndices : ℕ → List ℤ) : Option (Bool × (ℕ → List ℤ)) :=
  if supported && !qScale then
    (fp8MqaLogitsTopkTorch topk t qScale indicesShape.2 (some indicesShape)).map fun out =>
      (true, out)
  else some (false, topkIndices)

/-- The logit of a cell: with clean logits `-inf` outside of the row's range. -/
def cleanLogit (cleanLogits : Bool) (row p : ℕ) : WithBot α :=
  if cleanLogits && !valid t row p then ⊥ else ((mqaLogit t row p : α) : WithBot α)

end Definitions

/-! ### What the kernel stores -/

section Kernel
variable {α : Type} [CommRing α] [LinearOrder α] (t : MqaInputs α)

/-- **A lane** stores the logit of its cell when its cell is one of the output. -/
theorem mqaLogitsKernel_eq {BLOCK_D : ℕ} (hD : 0 < BLOCK_D) (cleanLogits : Bool)
    (BLOCK_M BLOCK_N pidM pidN i j : ℕ) :
    mqaLogitsKernel t cleanLogits BLOCK_M BLOCK_N BLOCK_D pidM pidN i j =
      if pidM * BLOCK_M + i < t.seqLen ∧ pidN * BLOCK_N + j < t.seqLenKv then
        some ((pidM * BLOCK_M + i, pidN * BLOCK_N + j),
          cleanLogit t cleanLogits (pidM * BLOCK_M + i) (pidN * BLOCK_N + j))
      else none := by
  unfold mqaLogitsKernel
  generalize pidM * BLOCK_M + i = row
  generalize pidN * BLOCK_N + j = p
  by_cases hcell : row < t.seqLen ∧ p < t.seqLenKv
  · obtain ⟨hrow, hp⟩ := hcell
    have hlogit : (loop t.numHeads fun h =>
        max ((loop (cdiv t.headDim BLOCK_D) fun d0 => ∑ d ∈ Finset.range BLOCK_D,
          load (decide (d0 * BLOCK_D + d < t.headDim)) (t.q row h (d0 * BLOCK_D + d)) *
            load (decide (d0 * BLOCK_D + d < t.headDim)) (t.kValues p (d0 * BLOCK_D + d))) *
              t.kScales p) 0 * t.weights row h) = mqaLogit t row p := by
      simp only [loop_dot (le_cdiv_mul hD), loop_eq_sum, mqaLogit, headLogit, Finset.sum_mul,
        mul_assoc]
    simp only [hrow, hp, decide_true, Bool.and_self, Bool.true_and, load_true, if_true, and_self,
      Bool.and_true, hlogit]
    unfold cleanLogit valid
    cases cleanLogits with
    | false => rfl
    | true =>
      rw [if_pos rfl, Bool.true_and]
      generalize (decide (t.cuSeqlenKs row ≤ p) && decide ((p : ℤ) < t.cuSeqlenKe row)) = valid
      cases valid with
      | false => rfl
      | true => rfl
  · simp [hcell]

/-- **The launch** stores every cell of the output with its logit, in any order. -/
theorem fp8MqaLogitsTriton_run (cleanLogits : Bool) {stores : List ((ℕ × ℕ) × WithBot α)}
    (horder : stores.Perm (fp8MqaLogitsTriton t cleanLogits)) {row p : ℕ} (hrow : row < t.seqLen)
    (hp : p < t.seqLenKv) :
    run stores (fun _ => none) (row, p) = some (cleanLogit t cleanLogits row p) := by
  have hopen : ¬ (t.seqLen = 0 ∨ t.seqLenKv = 0) := by omega
  have hmem : ∀ s, s ∈ stores ↔ ∃ pidM < cdiv t.seqLen 8, ∃ pidN < cdiv t.seqLenKv 64,
      ∃ i < 8, ∃ j < 64, mqaLogitsKernel t cleanLogits 8 64 64 pidM pidN i j = some s := by
    intro s
    rw [horder.mem_iff, fp8MqaLogitsTriton, if_neg hopen]
    simp only [mem_grid, Option.mem_toList]
  apply run_eq_of_agree
  · have hM := (lt_cdiv_iff (show 0 < 8 by decide)).mpr
      ((Nat.div_mul_le_self row 8).trans_lt hrow)
    have hN := (lt_cdiv_iff (show 0 < 64 by decide)).mpr ((Nat.div_mul_le_self p 64).trans_lt hp)
    refine (hmem _).mpr ⟨row / 8, hM, p / 64, hN, row % 8, Nat.mod_lt _ (by decide), p % 64,
      Nat.mod_lt _ (by decide), ?_⟩
    rw [mqaLogitsKernel_eq t (by decide), Nat.div_add_mod', Nat.div_add_mod', if_pos ⟨hrow, hp⟩]
  · rintro ⟨cell, v⟩ hs hcell
    obtain ⟨pidM, -, pidN, -, i, -, j, -, hlane⟩ := (hmem _).mp hs
    rw [mqaLogitsKernel_eq t (by decide)] at hlane
    by_cases hin : pidM * 8 + i < t.seqLen ∧ pidN * 64 + j < t.seqLenKv
    · rw [if_pos hin] at hlane
      obtain ⟨hkey, hv⟩ := Prod.mk.inj (Option.some.inj hlane)
      obtain ⟨hr, hc⟩ := Prod.mk.inj (hkey.trans hcell)
      rw [← hv, hr, hc]
    · rw [if_neg hin] at hlane
      cases hlane

end Kernel

/-! ### What the fallback adds up -/

section Torch
variable {α : Type} [CommRing α] [LinearOrder α] (t : MqaInputs α)

/-- **A chunk of heads** is added to every key once, whatever the chunks of keys. -/
theorem addHeadChunk_eq (headStart headEnd : ℕ) {kChunkSize : ℕ} (hk : 0 < kChunkSize)
    (logits : ℕ → ℕ → α) (row : ℕ) {p : ℕ} (hp : p < t.seqLenKv) :
    addHeadChunk t headStart headEnd kChunkSize logits row p =
      logits row p + ∑ h ∈ Finset.Ico headStart headEnd, headLogit t row p h := by
  -- after `m` passes the keys below `m * kChunkSize` have been added to
  have hprefix : ∀ m, (List.range m).foldl (fun logits pass =>
      addScores t headStart headEnd (pass * kChunkSize)
        (min (pass * kChunkSize + kChunkSize) t.seqLenKv) logits) logits row p =
        if p < m * kChunkSize then
          logits row p + ∑ h ∈ Finset.Ico headStart headEnd, headLogit t row p h
        else logits row p := by
    intro m
    induction m with
    | zero => rw [Nat.zero_mul, if_neg (Nat.not_lt_zero p)]; rfl
    | succ m ih =>
      rw [List.range_succ, List.foldl_append, List.foldl_cons, List.foldl_nil, addScores, ih,
        Nat.succ_mul]
      by_cases hbefore : p < m * kChunkSize
      · rw [if_neg (by omega), if_pos hbefore, if_pos (by omega)]
      · by_cases hnow : p < m * kChunkSize + kChunkSize
        · rw [if_pos (by omega), if_neg hbefore, if_pos hnow]
        · rw [if_neg (by omega), if_neg hbefore, if_neg hnow]
  have hall := hprefix (cdiv t.seqLenKv kChunkSize)
  rw [if_pos (lt_of_lt_of_le hp (le_cdiv_mul hk))] at hall
  exact hall

/-- **The loops** add up all heads, whatever the chunks. -/
theorem addHeads_eq {headChunkSize : ℕ} (hhead : 0 < headChunkSize) {kChunkSize : ℕ → ℕ}
    (hk : ∀ heads, 0 < kChunkSize heads) (row : ℕ) {p : ℕ} (hp : p < t.seqLenKv) :
    addHeads t headChunkSize kChunkSize row p = mqaLogit t row p := by
  have hchunks : addHeads t headChunkSize kChunkSize row p =
      loop (cdiv t.numHeads headChunkSize) fun pass =>
        ∑ h ∈ Finset.Ico (pass * headChunkSize)
          (min (pass * headChunkSize + headChunkSize) t.numHeads), headLogit t row p h := by
    unfold addHeads loop
    symm
    apply List.foldl_hom (fun logits : ℕ → ℕ → α => logits row p)
    intro logits pass
    exact (addHeadChunk_eq t _ _ (hk _) logits row hp).symm
  rw [hchunks, loop_chunks (le_cdiv_mul hhead)]
  rfl

theorem mqaLogitsTorch_eq (cleanLogits : Bool) {headChunkSize : ℕ} (hhead : 0 < headChunkSize)
    {kChunkSize : ℕ → ℕ} (hk : ∀ heads, 0 < kChunkSize heads) :
    ∃ logits, mqaLogitsTorch t false cleanLogits headChunkSize kChunkSize = some logits ∧
      ∀ row, ∀ p < t.seqLenKv, logits row p = cleanLogit t cleanLogits row p := by
  refine ⟨_, rfl, fun row p hp => ?_⟩
  rw [cleanLogit, addHeads_eq t hhead hk row hp]

end Torch

/-! ### The backends -/

section Backends
variable {α : Type} [CommRing α] [LinearOrder α] (t : MqaInputs α)

theorem fp8MqaLogitsSm12x_eq (configured : Option String)
    {order : List ((ℕ × ℕ) × WithBot α) → List ((ℕ × ℕ) × WithBot α)}
    (horder : ∀ stores, (order stores).Perm stores) (cleanLogits : Bool) :
    ∃ logits, fp8MqaLogitsSm12x t configured order false cleanLogits = some logits ∧
      ∀ row < t.seqLen, ∀ p < t.seqLenKv, logits row p = some (cleanLogit t cleanLogits row p) := by
  unfold fp8MqaLogitsSm12x
  by_cases htriton : mqaLogitsTritonEnabled configured = true
  · rw [htriton]
    exact ⟨_, rfl, fun row hrow p hp => fp8MqaLogitsTriton_run t cleanLogits (horder _) hrow hp⟩
  · rw [Bool.not_eq_true] at htriton
    rw [htriton]
    have hhead : 0 < fp8MqaLogitsHeadChunkSize t.seqLen t.seqLenKv t.numHeads :=
      Nat.le_max_left 1 _
    have hk : ∀ heads, 0 < fp8MqaLogitsKChunkSize t.seqLen t.seqLenKv heads :=
      fun _ => Nat.le_max_left 1 _
    obtain ⟨logits, hlogits, hvalue⟩ := mqaLogitsTorch_eq t cleanLogits hhead hk
    refine ⟨fun row p => some (logits row p), ?_, fun row _ p hp => congrArg some (hvalue row p hp)⟩
    rw [fp8MqaLogitsTorch, hlogits]
    rfl

/-- **The backends agree.** Whatever the environment variable, the order of the launch and
the chunks of heads and keys, the logits are those of the fallback: the weighted scores,
with clean logits `-inf` outside of a row's range.  An FP4 query goes to the fallback, which
refuses it. -/
theorem prefill_backends_agree (configured : Option String)
    {order : List ((ℕ × ℕ) × WithBot α) → List ((ℕ × ℕ) × WithBot α)}
    (horder : ∀ stores, (order stores).Perm stores) (cleanLogits : Bool) {headChunkSize : ℕ}
    (hhead : 0 < headChunkSize) {kChunkSize : ℕ → ℕ} (hk : ∀ heads, 0 < kChunkSize heads) :
    (∃ logits fallback, fp8MqaLogitsSm12x t configured order false cleanLogits = some logits ∧
      mqaLogitsTorch t false cleanLogits headChunkSize kChunkSize = some fallback ∧
      ∀ row < t.seqLen, ∀ p < t.seqLenKv, logits row p = some (fallback row p) ∧
        fallback row p = cleanLogit t cleanLogits row p) ∧
    fp8MqaLogitsSm12x t configured order true cleanLogits = none := by
  constructor
  · obtain ⟨logits, hlogits, hvalue⟩ := fp8MqaLogitsSm12x_eq t configured horder cleanLogits
    obtain ⟨fallback, hfallback, hvalue'⟩ := mqaLogitsTorch_eq t cleanLogits hhead hk
    refine ⟨logits, fallback, hlogits, hfallback, fun row hrow p hp => ⟨?_, hvalue' row p hp⟩⟩
    rw [hvalue row hrow p hp, hvalue' row p hp]
  · unfold fp8MqaLogitsSm12x
    rw [Bool.not_true, Bool.and_false]
    rfl

/-- The fallback, two keys at a time, against tiles that are stored last to first. -/
theorem prefill_backends_agree_fiveKeys :
    ∃ logits fallback, fp8MqaLogitsSm12x fiveKeys none List.reverse false true = some logits ∧
      mqaLogitsTorch fiveKeys false true 1 (fun _ => 2) = some fallback ∧
      logits 1 2 = some (fallback 1 2) ∧ logits 1 4 = some (fallback 1 4) := by
  obtain ⟨⟨logits, fallback, hlogits, hfallback, hvalue⟩, -⟩ := prefill_backends_agree fiveKeys none
    List.reverse_perm true Nat.one_pos (fun _ => Nat.two_pos)
  exact ⟨logits, fallback, hlogits, hfallback, (hvalue 1 (by decide) 2 (by decide)).1,
    (hvalue 1 (by decide) 4 (by decide)).1⟩

theorem maskedRow_eq_cleanLogit (row p : ℕ) :
    maskedRow (valid t row) (mqaLogit t row) p = cleanLogit t true row p := by
  unfold maskedRow cleanLogit
  cases valid t row p with
  | false => rfl
  | true => rfl

omit [CommRing α] in
/-- What is held in the end, as a list of positions padded to the number of lanes. -/
theorem out_perm_of_seen {score : ℕ → WithBot α} {topkTokens n : ℕ} {running : Running (WithBot α)}
    (h : Seen score topkTokens n running) :
    running.out.Perm (padTo topkTokens (positions running.lanes)) := by
  have hperm := map_snd_perm_padTo h.lane
  have hlength : running.lanes.length = topkTokens := by
    rw [Running.lanes, List.length_zip, h.values, h.indices, Nat.min_self]
  rw [hlength, Running.lanes, List.map_snd_zip (h.values.trans h.indices.symm).ge] at hperm
  exact hperm

/-- **The top-k is taken from the logits.** Where `fp8_fp4_mqa_topk_indices` takes the
request, the indices it writes are, for every row and every tie-break of `torch.topk`, the
top `K` of the finite logits that `_fp8_mqa_logits_sm12x` returns, by whichever backend. -/
theorem prefill_topk_of_logits {topk : ℕ → ℕ → List (WithBot α) → ℕ → List ℕ}
    (htopk : ∀ call row, TorchTopk (topk call row)) (configured : Option String)
    {order : List ((ℕ × ℕ) × WithBot α) → List ((ℕ × ℕ) × WithBot α)}
    (horder : ∀ stores, (order stores).Perm stores) (topkTokens : ℕ) (topkIndices : ℕ → List ℤ) :
    ∃ out logits,
      fp8Fp4MqaTopkIndices t topk true false (t.seqLen, topkTokens) topkIndices = some (true, out) ∧
      fp8MqaLogitsSm12x t configured order false true = some logits ∧
      ∀ row < t.seqLen, ∃ sel, (out row).Perm (padTo topkTokens sel) ∧
        IsTopk (fun p => (logits row p).getD ⊥)
          (finiteKeys (fun p => (logits row p).getD ⊥) t.seqLenKv) topkTokens sel := by
  obtain ⟨logits, hlogits, hvalue⟩ := fp8MqaLogitsSm12x_eq t configured horder true
  have hhead : 0 < fp8MqaLogitsHeadChunkSize t.seqLen t.seqLenKv t.numHeads := Nat.le_max_left 1 _
  have hk : 0 < fp8MqaLogitsKChunkSize t.seqLen t.seqLenKv
      (fp8MqaLogitsHeadChunkSize t.seqLen t.seqLenKv t.numHeads) := Nat.le_max_left 1 _
  obtain ⟨running, hrun, hseen⟩ := @streamTopk_seen _ _ _ topk htopk topkTokens t.seqLenKv _ hk
    t.seqLen (fun kStart len => some (chunkLogits t _ kStart len))
    (fun row => maskedRow (valid t row) (mqaLogit t row))
    (fun kStart len _ => ⟨_, rfl, fun row _ => chunkLogits_eq t hhead kStart len row⟩)
  refine ⟨fun row => (running row).out, logits, ?_, hlogits, fun row hrow => ?_⟩
  · show (fp8MqaLogitsTopkTorch topk t false topkTokens (some (t.seqLen, topkTokens))).map _ = _
    have hshape : (some (t.seqLen, topkTokens)).all (· = (t.seqLen, topkTokens)) = true :=
      decide_eq_true rfl
    rw [fp8MqaLogitsTopkTorch, mqaLogitsTopk, if_neg Bool.false_ne_true, if_pos hshape, hrun]
    rfl
  · have hscore : ∀ p < t.seqLenKv,
        maskedRow (valid t row) (mqaLogit t row) p = (logits row p).getD ⊥ := by
      intro p hp
      rw [hvalue row hrow p hp, maskedRow_eq_cleanLogit]
      rfl
    have hkeys : finiteKeys (maskedRow (valid t row) (mqaLogit t row)) t.seqLenKv =
        finiteKeys (fun p => (logits row p).getD ⊥) t.seqLenKv := by
      refine List.filter_congr fun p hp => ?_
      rw [hscore p (List.mem_range.mp hp)]
    refine ⟨_, out_perm_of_seen (hseen row hrow), ?_⟩
    have htop := (hseen row hrow).topk
    rw [hkeys] at htop
    apply htop.congr_score
    intro p hp
    exact hscore p (List.mem_range.mp (List.mem_of_mem_filter hp))

/-- Three lanes for the second row of five keys, which has two valid keys. -/
theorem prefill_topk_of_logits_fiveKeys :
    ∃ out logits, fp8Fp4MqaTopkIndices fiveKeys (fun _ _ => lowestFirst) true false (2, 3)
        (fun _ => []) = some (true, out) ∧
      fp8MqaLogitsSm12x fiveKeys (some "off") id false true = some logits ∧
      ∃ sel, (out 1).Perm (padTo 3 sel) ∧ IsTopk (fun p => (logits 1 p).getD ⊥)
        (finiteKeys (fun p => (logits 1 p).getD ⊥) 5) 3 sel := by
  have htopk : ∀ _call _row : ℕ, TorchTopk lowestFirst := fun _ _ row k _ =>
    strictTopk_isTopk List.nodup_range
  obtain ⟨out, logits, hout, hlogits, hrows⟩ := prefill_topk_of_logits fiveKeys htopk (some "off")
    (fun stores => List.Perm.refl stores) 3 (fun _ => [])
  exact ⟨out, logits, hout, hlogits, hrows 1 (by decide)⟩

end Backends

/-! ### The paged kernels -/

section Paged
variable {α : Type} [CommRing α] [LinearOrder α]

/-- The keys of the requests, gathered one request after the other: request `b` from
position `start b` on. -/
structure Gathers (shape : Shape) (t : Tensors α) (start : ℕ → ℕ) (m : MqaInputs α) : Prop where
  seqLen : m.seqLen = shape.numRows
  numHeads : m.numHeads = shape.numHeads
  headDim : m.headDim = shape.headDim
  q : ∀ row < shape.numRows, m.q row = t.q (row / shape.nextN) (row % shape.nextN)
  weights : ∀ row < shape.numRows, m.weights row = t.weights row
  cuSeqlenKs : ∀ row < shape.numRows, m.cuSeqlenKs row = start (row / shape.nextN)
  cuSeqlenKe : ∀ row < shape.numRows,
    m.cuSeqlenKe row = start (row / shape.nextN) + rowContext shape t row
  keys : ∀ row < shape.numRows, ∀ p : ℕ, (p : ℤ) < rowContext shape t row →
    let page := t.blockTables (row / shape.nextN) (p / shape.blockSize)
    let slot := p % shape.blockSize
    m.kValues (start (row / shape.nextN) + p) = t.kvValues page slot ∧
      m.kScales (start (row / shape.nextN) + p) = t.kvScale page slot

/-- The logit of a gathered key. -/
theorem mqaLogit_of_gathers {shape : Shape} {t : Tensors α} {start : ℕ → ℕ} {m : MqaInputs α}
    (h : Gathers shape t start m) {row : ℕ} (hrow : row < shape.numRows) {p : ℕ}
    (hp : (p : ℤ) < rowContext shape t row) :
    mqaLogit m row (start (row / shape.nextN) + p) = logit shape t row p := by
  obtain ⟨hvalues, hscale⟩ := h.keys row hrow p hp
  unfold mqaLogit headLogit logit
  rw [h.numHeads]
  refine Finset.sum_congr rfl fun head _ => ?_
  rw [hvalues, hscale, h.headDim, h.q row hrow, h.weights row hrow, mul_comm, Finset.mul_sum]
  congr 2
  refine Finset.sum_congr rfl fun d _ => ?_
  rw [mul_comm (t.kvScale _ _), mul_assoc]

/-- **Prefill and decode score alike.** When the keys of the requests are gathered one
after the other, the prefill logits, by whichever backend, hold the paged logits of each
request from the request's first key on, for any window and launch orders; outside of a
row's context both are `-inf`. -/
theorem prefill_eq_paged {shape : Shape} {t : Tensors α} {start : ℕ → ℕ} {m : MqaInputs α}
    (h : Gathers shape t start m) (configured : Option String)
    {order : List ((ℕ × ℕ) × WithBot α) → List ((ℕ × ℕ) × WithBot α)}
    (horder : ∀ stores, (order stores).Perm stores) {maxModelLen tokenStart tokenCount : ℕ}
    (hfits : tokenStart + tokenCount ≤ maxModelLen) :
    ∃ logits lanes, fp8MqaLogitsSm12x m configured order false true = some logits ∧
      fp8PagedMqaLogitsTriton shape t maxModelLen tokenStart (some tokenCount) = some lanes ∧
      ∀ order' : List (Lane α), order'.Perm lanes → ∀ row < shape.numRows,
        let first := start (row / shape.nextN)
        (∀ col < tokenCount, ((tokenStart + col : ℕ) : ℤ) < rowContext shape t row →
          first + (tokenStart + col) < m.seqLenKv →
          logits row (first + (tokenStart + col)) = logitsAfter order' (row, col)) ∧
        (∀ col < tokenCount, rowContext shape t row ≤ ((tokenStart + col : ℕ) : ℤ) →
          logitsAfter order' (row, col) = some ⊥) ∧
        ∀ p < m.seqLenKv, p < first ∨ first + rowContext shape t row ≤ p →
          logits row p = some ⊥ := by
  obtain ⟨logits, hlogits, hvalue⟩ := fp8MqaLogitsSm12x_eq m configured horder true
  obtain ⟨lanes, hlanes, hstores⟩ := fp8PagedMqaLogitsTriton_stores shape t hfits
  refine ⟨logits, lanes, hlogits, hlanes, fun order' hperm row hrow => ?_⟩
  intro first
  have hrow' : row < m.seqLen := h.seqLen ▸ hrow
  have hpaged := fun {col : ℕ} (hcol : col < tokenCount) =>
    hstores.logitsAfter_eq hperm hrow hcol
  have hvalid : ∀ p : ℕ, valid m row p = true ↔
      first ≤ p ∧ (p : ℤ) < first + rowContext shape t row := by
    intro p
    rw [valid, h.cuSeqlenKs row hrow, h.cuSeqlenKe row hrow, Bool.and_eq_true, decide_eq_true_eq,
      decide_eq_true_eq, Nat.cast_le]
  refine ⟨fun col hcol hctx hkv => ?_, fun col hcol hctx => ?_, fun p hp hout => ?_⟩
  · have hin : valid m row (first + (tokenStart + col)) = true :=
      (hvalid _).mpr ⟨Nat.le_add_right _ _, by push_cast at hctx ⊢; omega⟩
    rw [hvalue row hrow' _ hkv, hpaged hcol, cleanLogit, hin, maskedLogit, if_pos hctx,
      mqaLogit_of_gathers h hrow hctx]
    rfl
  · rw [hpaged hcol, maskedLogit, if_neg (not_lt.mpr hctx)]
  · have hno : valid m row p = false := by
      rw [← Bool.not_eq_true, hvalid]
      rintro ⟨hle, hlt⟩
      rcases hout with hbefore | hafter
      · exact absurd hle (not_le.mpr hbefore)
      · exact absurd hlt (not_lt.mpr hafter)
    rw [hvalue row hrow' p hp, cleanLogit, hno]
    rfl

end Paged

/-- The five keys of `speculativeTensors`, gathered from position 2 on, behind two keys of
another request. -/
def speculativeKeys : MqaInputs ℤ where
  seqLen := 2
  numHeads := 1
  headDim := 2
  seqLenKv := 7
  q row := speculativeTensors.q (row / 2) (row % 2)
  kValues p := speculativeTensors.kvValues ([2, 0, 1].getD ((p - 2) / 2) 7) ((p - 2) % 2)
  kScales p := speculativeTensors.kvScale ([2, 0, 1].getD ((p - 2) / 2) 7) ((p - 2) % 2)
  weights := speculativeTensors.weights
  cuSeqlenKs _ := 2
  cuSeqlenKe row := row + 6

theorem speculativeKeys_gathers :
    Gathers speculativeShape speculativeTensors (fun _ => 2) speculativeKeys where
  seqLen := rfl
  numHeads := rfl
  headDim := rfl
  q _ _ := rfl
  weights _ _ := rfl
  cuSeqlenKs _ _ := rfl
  cuSeqlenKe := by decide
  keys row hrow p _ := by
    have hzero : row / speculativeShape.nextN = 0 := Nat.div_eq_of_lt hrow
    simp only [hzero, speculativeKeys, Nat.add_sub_cancel_left]
    exact ⟨rfl, rfl⟩

/-- The window from position 3 of the request: its first key there is the sixth that was
gathered. -/
theorem prefill_eq_paged_speculative :
    Gathers speculativeShape speculativeTensors (fun _ => 2) speculativeKeys ∧
    ∃ logits lanes, fp8MqaLogitsSm12x speculativeKeys none List.reverse false true = some logits ∧
      fp8PagedMqaLogitsTriton speculativeShape speculativeTensors 5 3 (some 2) = some lanes ∧
      logits 1 5 = logitsAfter lanes.reverse (1, 0) ∧ logits 1 1 = some ⊥ ∧
      logitsAfter lanes.reverse (0, 1) = some ⊥ := by
  refine ⟨speculativeKeys_gathers, ?_⟩
  obtain ⟨logits, lanes, hlogits, hlanes, hrows⟩ := prefill_eq_paged speculativeKeys_gathers none
    List.reverse_perm (show 3 + 2 ≤ 5 by decide)
  obtain ⟨-, hbehind, -⟩ := hrows _ lanes.reverse_perm 0 (by decide)
  obtain ⟨hkeys, -, houtside⟩ := hrows _ lanes.reverse_perm 1 (by decide)
  exact ⟨logits, lanes, hlogits, hlanes, hkeys 0 (by decide) (by decide) (by decide),
    houtside 1 (by decide) (by decide), hbehind 1 (by decide) (by decide)⟩

end Glm52.PrefillMqa
