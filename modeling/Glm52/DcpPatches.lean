import Glm52.FilePatch

/-! # Items A, B and C

The context-parallel patches.  Item A edits `mla_attention.py`.  The other two edit two
files each: item B the decode indexer, item C the prefill indexer, in `indexer.py`, which
builds the metadata, and in `sparse_attn_indexer.py`, which reads it.  The anchors and the
replacements are the ones of the script. -/
namespace Glm52.DcpPatches
open TextReplace FilePatch

namespace ItemA

/-- The mark of item A. -/
def sentinel : Text := txt "# GLM52_DCP_FP8_GATE"

def anchor1 : Text := lines
    [txt "            if fp8_attention and self.impl.supports_quant_query_input:"]

def repl1 : Text := lines
    [txt "            " ++ sentinel,
     txt "            # Under DCP keep the query as a tuple (see glm52-dcp-patches.sh);",
     txt "            # only collapse to the quantized fp8 query when NOT context-parallel.",
     txt "            if (",
     txt "                fp8_attention",
     txt "                and self.impl.supports_quant_query_input",
     txt "                and self.impl.dcp_world_size <= 1",
     txt "            ):"]

def anchor2 : Text := lines
    [txt "                assert not fp8_attention, \"DCP not support fp8 kvcache now.\""]

def repl2 : Text := lines
    [txt "                " ++ sentinel,
     txt "                # fp8 KV is allowed under DCP: only the bf16 query is",
     txt "                # all-gathered below; the KV cache stays fp8_ds_mla."]

/-- The edits of `mla_attention.py`. -/
def edits : List (Edit Char) := [⟨anchor1, repl1⟩, ⟨anchor2, repl2⟩]

/-- Step A: one check of both anchors, with one message. -/
def rewriteMlaAttention (src : Text) : Except Fatal (Option Text) :=
  if occurs sentinel src then .ok none
  else if !occurs anchor1 src || !occurs anchor2 src then
    .error ⟨"   FATAL: mla_attention.py DCP anchors not found — source differs from " ++
      "ab66606; aborting (refuse to patch unknown source).", 1⟩
  else .ok (some (applyEdits edits src))

theorem rewriteMlaAttention_rewrites : Rewrites sentinel edits rewriteMlaAttention where
  skip h := by rw [rewriteMlaAttention, if_pos (occurs_iff.mpr h)]
  patch {src} hsent hall := by
    have h1 : occurs anchor1 src = true := occurs_iff.mpr (hall ⟨anchor1, repl1⟩ (by simp [edits]))
    have h2 : occurs anchor2 src = true := occurs_iff.mpr (hall ⟨anchor2, repl2⟩ (by simp [edits]))
    rw [rewriteMlaAttention, if_neg (by simpa using hsent), h1, h2]
    rfl
  abort {src} hsent hmissing := by
    have hno : (!occurs anchor1 src || !occurs anchor2 src) = true := by
      by_contra hboth
      refine hmissing fun e he => ?_
      simp only [edits, List.mem_cons, List.not_mem_nil, or_false] at he
      simp only [Bool.or_eq_true, Bool.not_eq_true', not_or, Bool.not_eq_false] at hboth
      rcases he with rfl | rfl
      · exact occurs_iff.mp hboth.1
      · exact occurs_iff.mp hboth.2
    rw [rewriteMlaAttention, if_neg (by simpa using hsent), if_pos hno]
    exact ⟨_, rfl, Nat.one_ne_zero⟩

/-- Item A on `mla_attention.py`. -/
def mlaAttention : Patcher where
  sentinel := sentinel
  edits := edits
  rewrite := rewriteMlaAttention
  rewrites := rewriteMlaAttention_rewrites
  nonempty := List.cons_ne_nil _ _
  grows := by decide +kernel
  newlines := by decide +kernel

end ItemA

namespace ItemB

/-- The mark of item B. -/
def sent : Text := txt "# GLM52_DCP_PERF2"

/-! ### `indexer.py` -/

def a1 : Text := lines
    [txt "    decode_lens: torch.Tensor",
     txt "    requires_padding: bool",
     txt "    schedule_metadata: torch.Tensor"]

def r1 : Text := a1 ++ lines
    [txt "    " ++ sent ++ txt " LOCAL 2D seq_lens + schedule for the per-rank logits kernel",
     txt "    dcp_local_seq_lens: \"torch.Tensor | None\" = None",
     txt "    dcp_local_schedule_metadata: \"torch.Tensor | None\" = None"]

def a2 : Text := lines
    [txt "        self.scheduler_metadata_buffer = torch.empty(",
     txt "            (self.num_sms + 1, 2), dtype=torch.int32, device=self.device",
     txt "        )"]

def r2 : Text := a2 ++ lines
    [txt "        " ++ sent ++ txt " second schedule buffer for the LOCAL-seq_lens logits kernel",
     txt "        self.dcp_scheduler_metadata_buffer = torch.empty(",
     txt "            (self.num_sms + 1, 2), dtype=torch.int32, device=self.device",
     txt "        )"]

def a3 : Text := lines
    [txt "            decode_metadata = DeepSeekV32IndexerDecodeMetadata(",
     txt "                block_table=block_table,",
     txt "                seq_lens=seq_lens,",
     txt "                decode_lens=decode_lens,",
     txt "                requires_padding=requires_padding,",
     txt "                schedule_metadata=self.scheduler_metadata_buffer,",
     txt "            )"]

def r3 : Text := lines
    [txt "            " ++ sent ++ txt " localize GLOBAL 2D seq_lens to owned counts for the",
     txt "            # per-rank logits kernel (expand-then-localize); global top-k keeps GLOBAL.",
     txt "            dcp_local_seq_lens = None",
     txt "            dcp_local_schedule_metadata = None",
     txt "            try:",
     txt "                from vllm.distributed.parallel_state import get_dcp_group as _gdg",
     txt "                _dcp = _gdg(); _N = _dcp.world_size; _r = _dcp.rank_in_group",
     txt "            except Exception:",
     txt "                _N = 1; _r = 0",
     txt "            if _N > 1:",
     txt "                _I = self.vllm_config.parallel_config.cp_kv_cache_interleave_size",
     txt "                assert _I == 1, \"GLM52_DCP item B requires " ++
       txt "cp_kv_cache_interleave_size==1\"",
     txt "                _g = seq_lens",
     txt "                _rounds = _g // (_N * _I)",
     txt "                _rem = torch.clamp((_g % (_N * _I)) - _r * _I, min=0, max=_I)",
     txt "                dcp_local_seq_lens = (_rounds * _I + _rem).to(_g.dtype).contiguous()",
     txt "                if current_platform.is_cuda() and has_deep_gemm():",
     txt "                    self.dcp_scheduler_metadata_buffer[:] = " ++
       txt "get_paged_mqa_logits_metadata(",
     txt "                        dcp_local_seq_lens,",
     txt "                        self.kv_cache_spec.storage_block_size,",
     txt "                        self.num_sms,",
     txt "                    )",
     txt "                    dcp_local_schedule_metadata = self.dcp_scheduler_metadata_buffer",
     txt "            decode_metadata = DeepSeekV32IndexerDecodeMetadata(",
     txt "                block_table=block_table,",
     txt "                seq_lens=seq_lens,",
     txt "                decode_lens=decode_lens,",
     txt "                requires_padding=requires_padding,",
     txt "                schedule_metadata=self.scheduler_metadata_buffer,",
     txt "                dcp_local_seq_lens=dcp_local_seq_lens,",
     txt "                dcp_local_schedule_metadata=dcp_local_schedule_metadata,",
     txt "            )"]

/-- The edits of `indexer.py`, by the names the messages use. -/
def indexerEdits : List (String × Edit Char) :=
  [("E1", ⟨a1, r1⟩), ("E2", ⟨a2, r2⟩), ("E3", ⟨a3, r3⟩)]

/-- `patch_indexer` of item B. -/
def patchIndexer : Text → Except Fatal (Option Text) :=
  patchFile sent "indexer.py" indexerEdits

/-! ### `sparse_attn_indexer.py` -/

def aR1 : Text := lines
    [txt "        else:",
     txt "            logits = fp8_fp4_paged_mqa_logits(",
     txt "                (padded_q_quant_cast, padded_q_scale),",
     txt "                kv_cache,",
     txt "                weights[:num_padded_tokens],",
     txt "                seq_lens,",
     txt "                decode_metadata.block_table,",
     txt "                decode_metadata.schedule_metadata,",
     txt "                max_model_len=max_model_len,",
     txt "                clean_logits=False,",
     txt "            )",
     txt "        num_rows = logits.shape[0]",
     txt "        topk_indices = topk_indices_buffer[:num_padded_tokens, :topk_tokens]"]

def rR1 : Text := lines
    [txt "        else:",
     txt "            " ++ sent ++ txt " feed LOCAL seq_lens+schedule so each rank scores " ++
       txt "its shard;",
     txt "            # PERF2 computes the exact global top-2048 from a fixed-size union below.",
     txt "            _glm52_lsl = (",
     txt "                decode_metadata.dcp_local_seq_lens",
     txt "                if decode_metadata.dcp_local_seq_lens is not None",
     txt "                else seq_lens",
     txt "            )",
     txt "            _glm52_lsched = (",
     txt "                decode_metadata.dcp_local_schedule_metadata",
     txt "                if decode_metadata.dcp_local_schedule_metadata is not None",
     txt "                else decode_metadata.schedule_metadata",
     txt "            )",
     txt "            logits = fp8_fp4_paged_mqa_logits(",
     txt "                (padded_q_quant_cast, padded_q_scale),",
     txt "                kv_cache,",
     txt "                weights[:num_padded_tokens],",
     txt "                _glm52_lsl,",
     txt "                decode_metadata.block_table,",
     txt "                _glm52_lsched,",
     txt "                max_model_len=max_model_len,",
     txt "                clean_logits=False,",
     txt "            )",
     txt "        num_rows = logits.shape[0]",
     txt "        topk_indices = topk_indices_buffer[:num_padded_tokens, :topk_tokens]",
     txt "        " ++ sent ++ txt " DCP group; local-top-2048 all_gather -> EXACT global " ++
       txt "top-2048",
     txt "        try:",
     txt "            from vllm.distributed.parallel_state import get_dcp_group as _glm52_gdg",
     txt "            _glm52_dcp = _glm52_gdg()",
     txt "            _glm52_N = _glm52_dcp.world_size",
     txt "            _glm52_r = _glm52_dcp.rank_in_group",
     txt "        except Exception:",
     txt "            _glm52_dcp = None; _glm52_N = 1; _glm52_r = 0",
     txt "        if _glm52_N > 1:",
     txt "            _glm52_inf = float(\"-inf\")",
     txt "            " ++ sent ++ txt " (1) each rank's LOCAL top-2048 over its owned KV shard",
     txt "            _glm52_loc_idx = topk_indices_buffer.new_empty(",
     txt "                (num_padded_tokens, topk_tokens)",
     txt "            )",
     txt "            ops.top_k_per_row_decode(",
     txt "                logits,",
     txt "                next_n,",
     txt "                _glm52_lsl,",
     txt "                _glm52_loc_idx,",
     txt "                num_rows,",
     txt "                logits.stride(0),",
     txt "                logits.stride(1),",
     txt "                topk_tokens,",
     txt "            )",
     txt "            " ++ sent ++ txt " (2) re-gather scores (kernel returns idx); local " ++
       txt "col c -> global c*N+r",
     txt "            _glm52_valid = _glm52_loc_idx >= 0",
     txt "            _glm52_safe = torch.where(",
     txt "                _glm52_valid, _glm52_loc_idx, torch.zeros_like(_glm52_loc_idx)",
     txt "            ).to(torch.int64)",
     txt "            _glm52_locsc = torch.gather(logits, 1, _glm52_safe)",
     txt "            _glm52_locsc = torch.where(",
     txt "                _glm52_valid, _glm52_locsc, torch.full_like(_glm52_locsc, _glm52_inf)",
     txt "            )",
     txt "            _glm52_gpos = torch.where(",
     txt "                _glm52_valid,",
     txt "                _glm52_loc_idx.to(torch.int64) * _glm52_N + _glm52_r,",
     txt "                torch.full_like(_glm52_loc_idx, -1, dtype=torch.int64),",
     txt "            )",
     txt "            " ++ sent ++ txt " (3) two FIXED-SIZE all_gathers [rows, N*topk] " ++
       txt "(context-independent)",
     txt "            _glm52_allsc = _glm52_dcp.all_gather(_glm52_locsc.contiguous(), dim=1)",
     txt "            _glm52_allpos = _glm52_dcp.all_gather(_glm52_gpos.contiguous(), dim=1)",
     txt "            " ++ sent ++ txt " (4) EXACT global top-2048 by strict order (score " ++
       txt "desc, global_pos asc)",
     txt "            _glm52_M = _glm52_allsc.shape[1]",
     txt "            _glm52_k = topk_tokens if topk_tokens < _glm52_M else _glm52_M",
     txt "            _glm52_poskey = torch.where(",
     txt "                _glm52_allpos >= 0, _glm52_allpos,",
     txt "                torch.full_like(_glm52_allpos, (1 << 62))",
     txt "            )",
     txt "            _glm52_o1 = torch.argsort(_glm52_poskey, dim=1, stable=True)",
     txt "            _glm52_sc1 = torch.gather(_glm52_allsc, 1, _glm52_o1)",
     txt "            _glm52_o2 = torch.argsort(_glm52_sc1, dim=1, descending=True, stable=True)",
     txt "            _glm52_order = torch.gather(_glm52_o1, 1, _glm52_o2)",
     txt "            _glm52_sel = _glm52_order[:, :_glm52_k]",
     txt "            " ++ sent ++ txt " (5) write selected GLOBAL positions into the " ++
       txt "canonical buffer",
     txt "            _glm52_vsel = torch.gather(_glm52_allsc, 1, _glm52_sel)",
     txt "            _glm52_gsel = torch.gather(_glm52_allpos, 1, _glm52_sel)",
     txt "            _glm52_gsel = torch.where(",
     txt "                _glm52_vsel == _glm52_inf, torch.full_like(_glm52_gsel, -1), " ++
       txt "_glm52_gsel",
     txt "            )",
     txt "            topk_indices.fill_(-1)",
     txt "            topk_indices[:, :_glm52_k] = _glm52_gsel.to(topk_indices.dtype)"]

def aR2 : Text := lines
    [txt "        if decode_metadata.requires_padding:",
     txt "            # if padded, we need to unpack"]

def rR2 : Text := lines
    [txt "        " ++ sent ++ txt " topk_indices are GLOBAL positions; keep this rank's owned",
     txt "        # ones rewritten to local p//N (else -1, skipped by the gather kernel).",
     txt "        if _glm52_N > 1:",
     txt "            _glm52_owned = (topk_indices % _glm52_N == _glm52_r) & (topk_indices >= 0)",
     txt "            _glm52_loc = torch.div(topk_indices, _glm52_N, rounding_mode=\"floor\")",
     txt "            topk_indices.copy_(",
     txt "                torch.where(_glm52_owned, _glm52_loc, " ++
       txt "torch.full_like(topk_indices, -1))",
     txt "            )",
     txt "        if decode_metadata.requires_padding:",
     txt "            # if padded, we need to unpack"]

def aR3 : Text := lines
    [txt "        # GLM52_SM12X_DECODE_REROUTE (GB10 cap-family 120 cannot run persistent_topk at",
     txt "        # long context; take the set-equivalent top_k_per_row_decode else-branch)",
     txt "        if (",
     txt "            current_platform.is_cuda()",
     txt "            and topk_tokens in (512, 1024, 2048)",
     txt "            and not current_platform.is_device_capability_family(120)",
     txt "        ):",
     txt "            workspace_manager = current_workspace_manager()",
     txt "            (topk_workspace,) = workspace_manager.get_simultaneous(",
     txt "                ((RADIX_TOPK_WORKSPACE_SIZE,), torch.uint8),",
     txt "            )",
     txt "            torch.ops._C.persistent_topk(",
     txt "                logits,",
     txt "                seq_lens,",
     txt "                topk_indices,",
     txt "                topk_workspace,",
     txt "                topk_tokens,",
     txt "                attn_metadata_narrowed.max_seq_len,",
     txt "            )",
     txt "        else:",
     txt "            ops.top_k_per_row_decode(",
     txt "                logits,",
     txt "                next_n,",
     txt "                seq_lens,",
     txt "                topk_indices,",
     txt "                num_rows,",
     txt "                logits.stride(0),",
     txt "                logits.stride(1),",
     txt "                topk_tokens,",
     txt "            )"]

def rR3 : Text := lines
    [txt "        " ++ sent ++ txt " stock decode top-k runs ONLY single-rank; under DCP the " ++
       txt "exact",
     txt "        # global top-2048 is already in topk_indices from the PERF2 block above.",
     txt "        if _glm52_N <= 1:",
     txt "            # GLM52_SM12X_DECODE_REROUTE (GB10 cap-family 120 cannot run " ++
       txt "persistent_topk at",
     txt "            # long context; take the set-equivalent top_k_per_row_decode else-branch)",
     txt "            if (",
     txt "                current_platform.is_cuda()",
     txt "                and topk_tokens in (512, 1024, 2048)",
     txt "                and not current_platform.is_device_capability_family(120)",
     txt "            ):",
     txt "                workspace_manager = current_workspace_manager()",
     txt "                (topk_workspace,) = workspace_manager.get_simultaneous(",
     txt "                    ((RADIX_TOPK_WORKSPACE_SIZE,), torch.uint8),",
     txt "                )",
     txt "                torch.ops._C.persistent_topk(",
     txt "                    logits,",
     txt "                    seq_lens,",
     txt "                    topk_indices,",
     txt "                    topk_workspace,",
     txt "                    topk_tokens,",
     txt "                    attn_metadata_narrowed.max_seq_len,",
     txt "                )",
     txt "            else:",
     txt "                ops.top_k_per_row_decode(",
     txt "                    logits,",
     txt "                    next_n,",
     txt "                    seq_lens,",
     txt "                    topk_indices,",
     txt "                    num_rows,",
     txt "                    logits.stride(0),",
     txt "                    logits.stride(1),",
     txt "                    topk_tokens,",
     txt "                )"]

/-- The edits of `sparse_attn_indexer.py`; `R3` is made before `R2`. -/
def saiEdits : List (String × Edit Char) :=
  [("R1", ⟨aR1, rR1⟩), ("R3", ⟨aR3, rR3⟩), ("R2", ⟨aR2, rR2⟩)]

/-- `patch_sai` of item B. -/
def patchSai : Text → Except Fatal (Option Text) :=
  patchFile sent "sparse_attn_indexer.py" saiEdits

/-- Item B on `indexer.py`. -/
def indexer : Patcher where
  sentinel := sent
  edits := indexerEdits.map Prod.snd
  rewrite := patchIndexer
  rewrites := patchFile_rewrites sent "indexer.py" indexerEdits
  nonempty := List.cons_ne_nil _ _
  grows := by decide +kernel
  newlines := by decide +kernel

/-- Item B on `sparse_attn_indexer.py`. -/
def sai : Patcher where
  sentinel := sent
  edits := saiEdits.map Prod.snd
  rewrite := patchSai
  rewrites := patchFile_rewrites sent "sparse_attn_indexer.py" saiEdits
  nonempty := List.cons_ne_nil _ _
  grows := by decide +kernel
  newlines := by decide +kernel

end ItemB

namespace ItemC

/-- The mark of item C. -/
def sent : Text := txt "# GLM52_DCP_ITEMC"

/-! ### `indexer.py` -/

def a1 : Text := lines
    [txt "    num_reqs: int",
     txt "    skip_kv_gather: bool = False"]

def r1 : Text := a1 ++ lines
    [txt "    " ++ sent ++ txt " per-rank-LOCAL gather metadata (None when DCP off)",
     txt "    dcp_local_cu_seq_lens: \"torch.Tensor | None\" = None",
     txt "    dcp_local_total_seq_lens: int = 0",
     txt "    dcp_local_seq_lens_allranks: \"torch.Tensor | None\" = None"]

def a2 : Text := lines
    [txt "    cu_seq_lens[:1] = 0",
     txt "    torch.cumsum(compressed_seq_lens[start_idx:end_idx], dim=0, out=cu_seq_lens[1:])"]

def r2 : Text := a2 ++ lines
    [txt "    " ++ sent ++ txt " per-rank-local cu_seq_lens + all-ranks owned counts " ++
       txt "(owner=p%N, local=p//N)",
     txt "    dcp_local_cu_seq_lens = None",
     txt "    dcp_local_total_seq_lens = 0",
     txt "    dcp_local_seq_lens_allranks = None",
     txt "    try:",
     txt "        from vllm.distributed.parallel_state import get_dcp_group as _gdg",
     txt "        _N = _gdg().world_size; _r = _gdg().rank_in_group",
     txt "    except Exception:",
     txt "        _N = 1; _r = 0",
     txt "    if _N > 1:",
     txt "        assert compress_ratio == 1, \"GLM52_DCP item C assumes compress_ratio==1\"",
     txt "        _gc = compressed_seq_lens[start_idx:end_idx]",
     txt "        _gc_cpu = compressed_seq_lens_cpu[start_idx:end_idx]",
     txt "        def _own(gt, rk):",
     txt "            return (gt // _N) + torch.clamp((gt % _N) - rk, min=0, max=1)",
     txt "        _loc = _own(_gc, _r)",
     txt "        dcp_local_cu_seq_lens = torch.empty(num_reqs + 1, dtype=torch.int32, " ++
       txt "device=device)",
     txt "        dcp_local_cu_seq_lens[:1] = 0",
     txt "        torch.cumsum(_loc, dim=0, out=dcp_local_cu_seq_lens[1:])",
     txt "        dcp_local_total_seq_lens = int(_own(_gc_cpu, _r).sum().item())",
     txt "        dcp_local_seq_lens_allranks = torch.stack(",
     txt "            [_own(_gc_cpu, rr) for rr in range(_N)], dim=0",
     txt "        ).to(torch.int32)"]

def a3 : Text := lines
    [txt "        num_reqs=num_reqs,"]

def r3 : Text := a3 ++ lines
    [txt "        dcp_local_cu_seq_lens=dcp_local_cu_seq_lens,",
     txt "        dcp_local_total_seq_lens=dcp_local_total_seq_lens,",
     txt "        dcp_local_seq_lens_allranks=dcp_local_seq_lens_allranks,"]

/-- The edits of `indexer.py`. -/
def indexerEdits : List (String × Edit Char) :=
  [("C1", ⟨a1, r1⟩), ("C2", ⟨a2, r2⟩), ("C3", ⟨a3, r3⟩)]

/-- `patch_indexer` of item C. -/
def patchIndexer : Text → Except Fatal (Option Text) :=
  patchFile sent "indexer.py" indexerEdits

/-! ### `sparse_attn_indexer.py` -/

def a4 : Text := lines
    [txt "        k_quant_full, k_scale_full = workspace_manager.get_simultaneous(",
     txt "            values_spec,",
     txt "            scales_spec,",
     txt "        )",
     txt "        for chunk in prefill_metadata.chunks:"]

def r4 : Text := lines
    [txt "        k_quant_full, k_scale_full = workspace_manager.get_simultaneous(",
     txt "            values_spec,",
     txt "            scales_spec,",
     txt "        )",
     txt "        " ++ sent ++ txt " DCP group + ragged shard->global K reassembly for prefill.",
     txt "        try:",
     txt "            from vllm.distributed.parallel_state import get_dcp_group as _glm52c_gdg",
     txt "            _glm52c_dcp = _glm52c_gdg()",
     txt "            _glm52c_N = _glm52c_dcp.world_size",
     txt "            _glm52c_r = _glm52c_dcp.rank_in_group",
     txt "        except Exception:",
     txt "            _glm52c_dcp = None; _glm52c_N = 1; _glm52c_r = 0",
     txt "        if _glm52c_N > 1:",
     txt "            _glm52c_lcap = (total_seq_lens + _glm52c_N - 1) // _glm52c_N",
     txt "            _glm52c_lv, _glm52c_ls = _gather_workspace_shapes(",
     txt "                _glm52c_lcap, head_dim, fp8_dtype, use_fp4_cache",
     txt "            )",
     txt "            k_quant_local_full, k_scale_local_full = " ++
       txt "workspace_manager.get_simultaneous(",
     txt "                _glm52c_lv, _glm52c_ls",
     txt "            )",
     txt "            def _glm52c_reasm_idx(L, N, device):",
     txt "                L = L.to(torch.int64); R = L.shape[1]",
     txt "                prt = L.sum(dim=1)",
     txt "                rb = torch.zeros(N, dtype=torch.int64); rb[1:] = " ++
       txt "torch.cumsum(prt[:-1], dim=0)",
     txt "                ro = torch.zeros((N, R), dtype=torch.int64); ro[:, 1:] = " ++
       txt "torch.cumsum(L[:, :-1], dim=1)",
     txt "                parts = []",
     txt "                for q in range(R):",
     txt "                    glen = int(L[:, q].sum().item())",
     txt "                    if glen == 0:",
     txt "                        continue",
     txt "                    p = torch.arange(glen, dtype=torch.int64); ow = p % N; lo = p // N",
     txt "                    parts.append(rb[ow] + ro[ow, q] + lo)",
     txt "                out = torch.cat(parts) if parts else torch.zeros(0, dtype=torch.int64)",
     txt "                return out.to(device)",
     txt "        for chunk in prefill_metadata.chunks:"]

def a5 : Text := lines
    [txt "            if not chunk.skip_kv_gather:",
     txt "                ops.cp_gather_indexer_k_quant_cache(",
     txt "                    kv_cache,",
     txt "                    k_quant,",
     txt "                    k_scale,",
     txt "                    chunk.block_table,",
     txt "                    chunk.cu_seq_lens,",
     txt "                )"]

def r5 : Text := lines
    [txt "            if not chunk.skip_kv_gather:",
     txt "                if _glm52c_N <= 1:",
     txt "                    ops.cp_gather_indexer_k_quant_cache(",
     txt "                        kv_cache,",
     txt "                        k_quant,",
     txt "                        k_scale,",
     txt "                        chunk.block_table,",
     txt "                        chunk.cu_seq_lens,",
     txt "                    )",
     txt "                else:",
     txt "                    " ++ sent ++ txt " gather shard (LOCAL cu_seq_lens) -> " ++
       txt "all_gatherv -> reassemble global",
     txt "                    _lt = chunk.dcp_local_total_seq_lens",
     txt "                    _kq_loc = k_quant_local_full[:_lt]",
     txt "                    _ks_loc = k_scale_local_full[:_lt]",
     txt "                    if _lt > 0:",
     txt "                        ops.cp_gather_indexer_k_quant_cache(",
     txt "                            kv_cache, _kq_loc, _ks_loc,",
     txt "                            chunk.block_table, chunk.dcp_local_cu_seq_lens,",
     txt "                        )",
     txt "                    _sizes = [int(chunk.dcp_local_seq_lens_allranks[rr].sum().item())",
     txt "                              for rr in range(_glm52c_N)]",
     txt "                    _kq_all = _glm52c_dcp.all_gatherv(_kq_loc, dim=0, sizes=_sizes)",
     txt "                    _ks_all = _glm52c_dcp.all_gatherv(_ks_loc, dim=0, sizes=_sizes)",
     txt "                    _ridx = _glm52c_reasm_idx(",
     txt "                        chunk.dcp_local_seq_lens_allranks, _glm52c_N, k_quant.device",
     txt "                    )",
     txt "                    torch.index_select(_kq_all, 0, _ridx, out=k_quant)",
     txt "                    torch.index_select(_ks_all, 0, _ridx, out=k_scale)"]

def a6 : Text := lines
    [txt "            ops.top_k_per_row_prefill(",
     txt "                logits,",
     txt "                chunk.cu_seqlen_ks,",
     txt "                chunk.cu_seqlen_ke,",
     txt "                topk_indices,",
     txt "                num_rows,",
     txt "                logits.stride(0),",
     txt "                logits.stride(1),",
     txt "                topk_tokens,",
     txt "            )"]

def r6 : Text := a6 ++ lines
    [txt "            " ++ sent ++ txt " prefill topk are GLOBAL positions; keep owned -> " ++
       txt "local p//N else -1.",
     txt "            if _glm52c_N > 1:",
     txt "                _ti = topk_indices",
     txt "                _ow = (_ti % _glm52c_N == _glm52c_r) & (_ti >= 0)",
     txt "                _lo = torch.div(_ti, _glm52c_N, rounding_mode=\"floor\")",
     txt "                _ti.copy_(torch.where(_ow, _lo, torch.full_like(_ti, -1)))"]

/-- The edits of `sparse_attn_indexer.py`. -/
def saiEdits : List (String × Edit Char) :=
  [("C4", ⟨a4, r4⟩), ("C5", ⟨a5, r5⟩), ("C6", ⟨a6, r6⟩)]

/-- `patch_sai` of item C. -/
def patchSai : Text → Except Fatal (Option Text) :=
  patchFile sent "sparse_attn_indexer.py" saiEdits

/-- Item C on `indexer.py`. -/
def indexer : Patcher where
  sentinel := sent
  edits := indexerEdits.map Prod.snd
  rewrite := patchIndexer
  rewrites := patchFile_rewrites sent "indexer.py" indexerEdits
  nonempty := List.cons_ne_nil _ _
  grows := by decide +kernel
  newlines := by decide +kernel

/-- Item C on `sparse_attn_indexer.py`. -/
def sai : Patcher where
  sentinel := sent
  edits := saiEdits.map Prod.snd
  rewrite := patchSai
  rewrites := patchFile_rewrites sent "sparse_attn_indexer.py" saiEdits
  nonempty := List.cons_ne_nil _ _
  grows := by decide +kernel
  newlines := by decide +kernel

end ItemC

end Glm52.DcpPatches
