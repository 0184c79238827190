import Glm52.FilePatch

/-! # Sparse patches A2, A3, A4 and C

The sparse patch script edits `deep_gemm.py`, where it adds the fallback wiring and calls
it in front of three gates (A2), and then `sparse_attn_indexer.py`, where it relaxes the
constructor's requirement (A3).  Two further steps stand alone: A4 routes the decode
top-k of the indexer, C takes two backends from the list of `nvfp4.py`.  An anchor is
looked for in the text that the edits before it have left; since no edit touches the
anchor of a later one, that is as good as looking for all of them in the file. -/
namespace Glm52.SparsePatches
open TextReplace FilePatch

/-- The mark of both patches. -/
def sentinel : Text := txt "# GLM52_SM12X_SPARSE_PATCHED"

/-! ### A2: `deep_gemm.py` -/

def helper : Text := lines
    [[],
     [],
     txt "# ---------------------------------------------------------------------------",
     txt "# GLM52_SM12X_SPARSE_PATCHED: sm_12x (consumer Blackwell / GB10) fallback wiring.",
     txt "# On capability family 120 there is no compiled DeepGEMM, so _lazy_init() leaves",
     txt "# the *_impl globals as None and the wrappers below would call _missing() and",
     txt "# raise. Instead, route the three DeepGEMM-only ops that GlmMoeDsa needs to the",
     txt "# portable Triton fallbacks in",
     txt "#   vllm/v1/attention/ops/deepseek_v4_ops/sm12x_deep_gemm_fallbacks.py",
     txt "# (runtime-mounted by the launcher). Imported lazily so a non-sm12x image is",
     txt "# unaffected and so the mount only has to exist at first call, not at import.",
     txt "# ---------------------------------------------------------------------------",
     txt "import functools as _glm52_functools",
     [],
     [],
     txt "@_glm52_functools.cache",
     txt "def _glm52_is_sm12x() -> bool:",
     txt "    try:",
     txt "        return bool(",
     txt "            current_platform.is_cuda()",
     txt "            and current_platform.is_device_capability_family(120)",
     txt "        )",
     txt "    except Exception:  # pragma: no cover - defensive",
     txt "        return False",
     [],
     [],
     txt "@_glm52_functools.cache",
     txt "def _glm52_sm12x_fallbacks():",
     txt "    from vllm.v1.attention.ops.deepseek_v4_ops.sm12x_deep_gemm_fallbacks import (",
     txt "        _fp8_mqa_logits_sm12x,",
     txt "        _fp8_paged_mqa_logits_sm12x,",
     txt "        _tf32_hc_prenorm_gemm_sm12x,",
     txt "    )",
     [],
     txt "    return (",
     txt "        _fp8_mqa_logits_sm12x,",
     txt "        _fp8_paged_mqa_logits_sm12x,",
     txt "        _tf32_hc_prenorm_gemm_sm12x,",
     txt "    )"]

def anchor : Text := lines
    [txt "def _missing(*_: Any, **__: Any) -> NoReturn:",
     txt "    \"\"\"Placeholder for unavailable DeepGEMM backend.\"\"\"",
     txt "    raise RuntimeError(",
     txt "        \"DeepGEMM backend is unavailable in the current vLLM environment, \"",
     txt "        \"or the available DeepGEMM package does not provide the required APIs \"",
     txt "        \"for these kernels.\"",
     txt "    )"]

def mqaGate : Text := lines
    [txt "    _lazy_init()",
     txt "    if _fp8_fp4_mqa_logits_impl is None:",
     txt "        return _missing()",
     txt "    return _fp8_fp4_mqa_logits_impl(",
     txt "        q,",
     txt "        kv,",
     txt "        weights,",
     txt "        cu_seqlen_ks,",
     txt "        cu_seqlen_ke,",
     txt "        clean_logits=clean_logits,",
     txt "    )"]

def mqaNew : Text := lines
    [txt "    if _glm52_is_sm12x():",
     txt "        _mqa, _paged, _hc = _glm52_sm12x_fallbacks()",
     txt "        return _mqa(q, kv, weights, cu_seqlen_ks, cu_seqlen_ke, clean_logits)"] ++ mqaGate

def pagedGate : Text := lines
    [txt "    _lazy_init()",
     txt "    if _fp8_fp4_paged_mqa_logits_impl is None:",
     txt "        return _missing()",
     txt "    return _fp8_fp4_paged_mqa_logits_impl(",
     txt "        q,",
     txt "        kv_cache,",
     txt "        weights,",
     txt "        context_lens,",
     txt "        block_tables,",
     txt "        schedule_metadata,",
     txt "        max_model_len,",
     txt "        clean_logits=clean_logits,",
     txt "    )"]

def pagedNew : Text := lines
    [txt "    if _glm52_is_sm12x():",
     txt "        _mqa, _paged, _hc = _glm52_sm12x_fallbacks()",
     txt "        return _paged(",
     txt "            q, kv_cache, weights, context_lens, block_tables, max_model_len",
     txt "        )"] ++ pagedGate

def hcGate : Text := lines
    [txt "    _lazy_init()",
     txt "    if _tf32_hc_prenorm_gemm_impl is None:",
     txt "        return _missing()",
     txt "    return _tf32_hc_prenorm_gemm_impl(",
     txt "        x,",
     txt "        fn,",
     txt "        out,",
     txt "        sqrsum,",
     txt "        num_split,",
     txt "    )"]

def hcNew : Text := lines
    [txt "    if _glm52_is_sm12x():",
     txt "        _mqa, _paged, _hc = _glm52_sm12x_fallbacks()",
     txt "        return _hc(x, fn, out, sqrsum, num_split)"] ++ hcGate

/-- The edits of `deep_gemm.py`, with what is said when an anchor is not there. -/
def deepGemmEdits : List (Edit Char × Fatal) :=
  [(⟨anchor, anchor ++ helper⟩,
      ⟨"   FATAL: _missing() anchor not found in deep_gemm.py — " ++
        "source differs from ab66606; aborting.", 3⟩),
   (⟨mqaGate, mqaNew⟩, ⟨"   FATAL: fp8_fp4_mqa_logits gate not found — aborting.", 4⟩),
   (⟨pagedGate, pagedNew⟩,
      ⟨"   FATAL: fp8_fp4_paged_mqa_logits gate not found — aborting.", 5⟩),
   (⟨hcGate, hcNew⟩, ⟨"   FATAL: tf32_hc_prenorm_gemm gate not found — aborting.", 6⟩)]

/-- Step A2. -/
def rewriteDeepGemm : Text → Except Fatal (Option Text) := rewriteFile sentinel deepGemmEdits

/-! ### A3: `sparse_attn_indexer.py` -/

def gate : Text := lines
    [txt "        if current_platform.is_cuda() and not has_deep_gemm():",
     txt "            raise RuntimeError(",
     txt "                \"Sparse Attention Indexer CUDA op requires DeepGEMM support in \"",
     txt "                \"the current vLLM environment.\"",
     txt "            )"]

def replacement : Text := lines
    [txt "        " ++ sentinel,
     txt "        # sm_12x (GB10) has no DeepGEMM package; the sparse indexer ops are",
     txt "        # served by the runtime-mounted Triton sm12x_* fallbacks instead, so",
     txt "        # do not require has_deep_gemm() on capability family 120.",
     txt "        if (",
     txt "            current_platform.is_cuda()",
     txt "            and not has_deep_gemm()",
     txt "            and not current_platform.is_device_capability_family(120)",
     txt "        ):",
     txt "            raise RuntimeError(",
     txt "                \"Sparse Attention Indexer CUDA op requires DeepGEMM support in \"",
     txt "                \"the current vLLM environment.\"",
     txt "            )"]

/-- The edit of `sparse_attn_indexer.py`. -/
def indexerEdits : List (Edit Char × Fatal) :=
  [(⟨gate, replacement⟩,
      ⟨"   FATAL: SparseAttnIndexer DeepGEMM gate not found — " ++
        "source differs from ab66606; aborting.", 7⟩)]

/-- Step A3. -/
def rewriteIndexer : Text → Except Fatal (Option Text) := rewriteFile sentinel indexerEdits

/-- The helper and the calls do not touch the gates that are still to be found. -/
theorem deepGemmEdits_independent : Independent (deepGemmEdits.map Prod.fst) :=
  independent_iff.mp (by decide +kernel)

theorem indexerEdits_independent : Independent (indexerEdits.map Prod.fst) :=
  List.pairwise_singleton _ _

/-- A2 on `deep_gemm.py`. -/
def deepGemm : Patcher where
  sentinel := sentinel
  edits := deepGemmEdits.map Prod.fst
  rewrite := rewriteDeepGemm
  rewrites := rewriteFile_rewrites sentinel deepGemmEdits_independent (by decide)
  nonempty := List.cons_ne_nil _ _
  grows := by decide +kernel
  newlines := by decide +kernel

/-- A3 on `sparse_attn_indexer.py`. -/
def indexer : Patcher where
  sentinel := sentinel
  edits := indexerEdits.map Prod.fst
  rewrite := rewriteIndexer
  rewrites := rewriteFile_rewrites sentinel indexerEdits_independent (by decide)
  nonempty := List.cons_ne_nil _ _
  grows := by decide +kernel
  newlines := by decide +kernel

/-! ### A4: the decode top-k of `sparse_attn_indexer.py` -/

namespace DecodeReroute

def sent : Text := txt "# GLM52_SM12X_DECODE_REROUTE"

def anchor : Text := lines
    [txt "        if current_platform.is_cuda() and topk_tokens in (512, 1024, 2048):"]

def new : Text := lines
    [txt "        " ++ sent ++ txt " (GB10 cap-family 120 cannot run persistent_topk at",
     txt "        # long context; take the set-equivalent top_k_per_row_decode else-branch)",
     txt "        if (",
     txt "            current_platform.is_cuda()",
     txt "            and topk_tokens in (512, 1024, 2048)",
     txt "            and not current_platform.is_device_capability_family(120)",
     txt "        ):"]

def edits : List (Edit Char × Fatal) :=
  [(⟨anchor, new⟩,
      ⟨"   FATAL A4: persistent_topk decode gate anchor not found in " ++
        "sparse_attn_indexer.py — source differs from ab66606; aborting.", 8⟩)]

/-- Step A4. -/
def rewriteIndexer : Text → Except Fatal (Option Text) := rewriteFile sent edits

theorem edits_independent : Independent (edits.map Prod.fst) := List.pairwise_singleton _ _

/-- A4 on `sparse_attn_indexer.py`. -/
def indexer : Patcher where
  sentinel := sent
  edits := edits.map Prod.fst
  rewrite := rewriteIndexer
  rewrites := rewriteFile_rewrites sent edits_independent (by decide)
  nonempty := List.cons_ne_nil _ _
  grows := by decide +kernel
  newlines := by decide +kernel

end DecodeReroute

/-! ### C: `nvfp4.py` -/

namespace MoeBackend

def sentinel : Text := txt "# GLM52_NVFP4_MOE_BACKEND"

def anchor : Text := lines
    [txt "    \"\"\"",
     txt "    Select the primary NvFP4 MoE backend",
     txt "    Note: Shape-specific fallbacks may still occur at runtime.",
     txt "    \"\"\"",
     [],
     txt "    # NOTE: the kernels are selected in the following order."]

def inject : Text := lines
    [txt "    \"\"\"",
     txt "    Select the primary NvFP4 MoE backend",
     txt "    Note: Shape-specific fallbacks may still occur at runtime.",
     txt "    \"\"\"",
     [],
     txt "    " ++ sentinel ++ txt ": on sm_12x (GB10, capability family 120) BOTH the",
     txt "    # FlashInfer NvFP4 MoE path (TRT-LLM cutlass_fused_moe -> intermittent",
     txt "    # CUDA IMA in cudaMemsetAsync(final_output)) AND the in-tree VLLM_CUTLASS",
     txt "    # path (same broken SM120 grouped-GEMM -> garbage) are unsafe. Strip them",
     txt "    # from auto-selection so the NvFP4 MoE lands on MARLIN. Auto-select only;",
     txt "    # an explicit moe_backend= request is honored unchanged.",
     txt "    from vllm.platforms import current_platform as _glm52_cp",
     txt "    _glm52_strip_unsafe_fam120 = (",
     txt "        config.moe_backend == \"auto\"",
     txt "        and _glm52_cp.is_cuda()",
     txt "        and _glm52_cp.is_device_capability_family(120)",
     txt "    )",
     [],
     txt "    # NOTE: the kernels are selected in the following order."]

def listAnchor : Text := lines
    [txt "        NvFp4MoeBackend.EMULATION,",
     txt "    ]",
     [],
     txt "    NVFP4_BACKENDS_WITH_CLAMP = \x7b"]

def listInject : Text := lines
    [txt "        NvFp4MoeBackend.EMULATION,",
     txt "    ]",
     [],
     txt "    if _glm52_strip_unsafe_fam120:",
     txt "        _glm52_unsafe = set(FLASHINFER_NVFP4_MOE_BACKENDS) | \x7b",
     txt "            NvFp4MoeBackend.VLLM_CUTLASS,",
     txt "        \x7d",
     txt "        AVAILABLE_BACKENDS = [",
     txt "            b for b in AVAILABLE_BACKENDS if b not in _glm52_unsafe",
     txt "        ]",
     [],
     txt "    NVFP4_BACKENDS_WITH_CLAMP = \x7b"]

def edits : List (Edit Char × Fatal) :=
  [(⟨anchor, inject⟩,
      ⟨"   FATAL: select_nvfp4_moe_backend docstring anchor not found — " ++
        "source differs from ab66606; aborting.", 3⟩),
   (⟨listAnchor, listInject⟩,
      ⟨"   FATAL: AVAILABLE_BACKENDS list-end anchor not found — aborting.", 4⟩)]

/-- Step C. -/
def rewriteNvfp4 : Text → Except Fatal (Option Text) := rewriteFile sentinel edits

theorem edits_independent : Independent (edits.map Prod.fst) :=
  independent_iff.mp (by decide +kernel)

/-- Step C on `nvfp4.py`. -/
def nvfp4 : Patcher where
  sentinel := sentinel
  edits := edits.map Prod.fst
  rewrite := rewriteNvfp4
  rewrites := rewriteFile_rewrites sentinel edits_independent (by decide)
  nonempty := List.cons_ne_nil _ _
  grows := by decide +kernel
  newlines := by decide +kernel

end MoeBackend

end Glm52.SparsePatches
