import ChainInscription.Assembler

/-!
# The chain layout planner

`buildEnhancedInscriptionChains` fills chains sequentially: the inscriptions are cut, in
request order, into segments of at most `MAX_TRANSACTIONS_PER_CHAIN - 1 = 24`, and segment `k`
is assembled on funding output `k`. The planner fails when the funding outputs run out, and
passes on any failure of the assembler; it never retries with another funding output.

The source's `while` loop is `planLoop`, run for at most `fuel` passes. Every pass that does not
fail moves the start index forward by at least one, so `totalInscriptions` passes are enough;
`buildEnhancedInscriptionChains` gives it exactly that many.
-/

namespace ChainInscription

variable {η : Type} (L : BitcoinLib η) (network : Network)

/-- `maxInscriptionsPerChain`: a commit and at most this many reveals make a chain. -/
def maxInscriptionsPerChain : ℕ := maxTransactionsPerChain - 1

/-- One pass of the `while (inscriptionStartIndex < totalInscriptions)` loop and the passes
after it, at most `fuel` in all, chain `c`'s commit pricing drawing `rand.sizing c`. Returns the
final start index and the tool. -/
def planLoop (rand : RandomDraws) (commitTxPrevOutputList : List PrevOutput) (p : ChainParams) :
    ℕ → ℕ → ℕ → ChainInscriptionTool η → Except String (ℕ × ChainInscriptionTool η)
  | 0, inscriptionStartIndex, _, tool => pure (inscriptionStartIndex, tool)
  | fuel + 1, inscriptionStartIndex, currentUtxoIndex, tool =>
    let totalInscriptions := tool.inscriptionTxCtxDataList.length
    let utxoCount := commitTxPrevOutputList.length
    if inscriptionStartIndex < totalInscriptions then
      if h : currentUtxoIndex ≥ utxoCount then
        throw s!"链式铭刻错误：UTXO 数量 ({utxoCount}) 不足以处理所有铭文 ({totalInscriptions})。请确保调用前已筛选足够价值的 UTXO。"
      else
        let utxo := commitTxPrevOutputList.get ⟨currentUtxoIndex, Nat.lt_of_not_le h⟩
        let remainingInscriptions := totalInscriptions - inscriptionStartIndex
        let countForThisChain := min remainingInscriptions maxInscriptionsPerChain
        let segmentEndIndex := inscriptionStartIndex + countForThisChain
        let inscriptionsForThisChain :=
          slice tool.inscriptionTxCtxDataList inscriptionStartIndex segmentEndIndex
        if inscriptionsForThisChain.length = 0 ∨
            inscriptionsForThisChain.length ≠ countForThisChain then
          throw "链式铭刻内部错误：无法获取铭文数据片段"
        else do
          let currentChainIndex := tool.txChains.length
          let (txChain, tool) ← buildSingleUtxoChain L network tool utxo inscriptionsForThisChain p
            inscriptionStartIndex currentChainIndex (rand.sizing currentChainIndex)
          let tool := if txChain.length > 0 then
            { tool with txChains := tool.txChains ++ [txChain] } else tool
          planLoop rand commitTxPrevOutputList p fuel (inscriptionStartIndex + countForThisChain)
            (currentUtxoIndex + 1) tool
    else pure (inscriptionStartIndex, tool)

/-- `buildEnhancedInscriptionChains(network, commitTxPrevOutputList, ...)`. The closing check
that the start index reached `totalInscriptions` only logs, so the loop's index is dropped. -/
def buildEnhancedInscriptionChains (rand : RandomDraws) (tool : ChainInscriptionTool η)
    (commitTxPrevOutputList : List PrevOutput) (p : ChainParams) :
    Except String (ChainInscriptionTool η) :=
  if commitTxPrevOutputList.length = 0 then pure tool
  else if tool.inscriptionTxCtxDataList.length = 0 then pure tool
  else do
    let (_, tool) ← planLoop L network rand commitTxPrevOutputList p
      tool.inscriptionTxCtxDataList.length 0 0 tool
    pure tool

/-! ## The layout the planner builds -/

@[simp] theorem maxInscriptionsPerChain_eq : maxInscriptionsPerChain = 24 := rfl

/-- The inscriptions of chain `k`: up to 24 of them, from inscription `24 k` on. -/
def segment {α : Type} (xs : List α) (k : ℕ) : List α :=
  slice xs (24 * k) (24 * k + min (xs.length - 24 * k) 24)

/-- The number of chains for `n` inscriptions, `⌈n / 24⌉`. -/
def chainCount (n : ℕ) : ℕ := (n + 23) / 24

theorem length_segment {α : Type} (xs : List α) (k : ℕ) :
    (segment xs k).length = min (xs.length - 24 * k) 24 := by
  simp only [segment, length_slice]
  omega

/-- The planner's sanity check never fails: while inscriptions remain, the slice it takes has
exactly the length it expects, and that length is positive. -/
theorem slice_length_of_lt {α : Type} (xs : List α) {start : ℕ} (h : start < xs.length) :
    (slice xs start (start + min (xs.length - start) maxInscriptionsPerChain)).length =
        min (xs.length - start) maxInscriptionsPerChain ∧
      min (xs.length - start) maxInscriptionsPerChain ≠ 0 := by
  simp only [length_slice, maxInscriptionsPerChain_eq]
  omega

section Passes
variable {L network} {rand : RandomDraws} {utxos : List PrevOutput} {p : ChainParams}
  {fuel s u : ℕ} {tool : ChainInscriptionTool η}

/-- With no inscription left the loop stops where it is. -/
theorem planLoop_of_le (hs : tool.inscriptionTxCtxDataList.length ≤ s) :
    planLoop L network rand utxos p fuel s u tool = .ok (s, tool) := by
  cases fuel with
  | zero => rfl
  | succ fuel => simp [planLoop, not_lt.2 hs]

/-- A pass with an inscription and a funding output left goes straight to the assembler: the
segment from `s`, of at most 24 inscriptions, is built on funding output `u`, and the chain, when
not empty, is appended. The slice-length check between them never fires. -/
theorem planLoop_succ_of_lt (hs : s < tool.inscriptionTxCtxDataList.length)
    (hu : u < utxos.length) :
    planLoop L network rand utxos p (fuel + 1) s u tool = (do
      let (txChain, tool₁) ← buildSingleUtxoChain L network tool utxos[u]
        (slice tool.inscriptionTxCtxDataList s
          (s + min (tool.inscriptionTxCtxDataList.length - s) 24)) p s tool.txChains.length
        (rand.sizing tool.txChains.length)
      planLoop L network rand utxos p fuel (s + min (tool.inscriptionTxCtxDataList.length - s) 24)
        (u + 1) (if txChain.length > 0 then { tool₁ with txChains := tool₁.txChains ++ [txChain] }
          else tool₁)) := by
  obtain ⟨hsl, hpos⟩ := slice_length_of_lt _ hs
  simp only [maxInscriptionsPerChain_eq] at hsl hpos
  simp only [planLoop, hs, if_true, ge_iff_le, not_le.2 hu, dif_neg, not_false_eq_true,
    maxInscriptionsPerChain_eq, hsl, hpos, or_false, ne_eq, not_true_eq_false, if_false]
  rfl

end Passes

/-- The `txFees` entries of the chains `k, k + 1, ...` with fees `feess`. -/
def planFees : ℕ → List (List ℤ) → List TxFee
  | _, [] => []
  | k, fees :: feess => feeEntries k 0 fees ++ planFees (k + 1) feess

/-- The `chainContextMapping` entries of the chains `k, k + 1, ...`: none for each commit, and
the inscription's index for each reveal. -/
def planMappings {α : Type} (xs : List α) : ℕ → List (List ℤ) → List ContextMapping
  | _, [] => []
  | k, _ :: feess =>
    (⟨k, 0, none⟩ :: revealMappings k 1 (24 * k) (segment xs k).length) ++
      planMappings xs (k + 1) feess

/-- `PlanBuilt utxos xs p rand k chains feess`: from segment `k` on, the planner builds the
chains `chains`, the `j`-th on funding output `k + j` from segment `k + j` with the draws of
chain `k + j`, with the fees `feess`. -/
inductive PlanBuilt (utxos : List PrevOutput) (xs : List InscriptionTxCtxData) (p : ChainParams)
    (rand : RandomDraws) : ℕ → List (List (Transaction η)) → List (List ℤ) → Prop
  | done {k : ℕ} (h : xs.length ≤ 24 * k) : PlanBuilt utxos xs p rand k [] []
  | chain {k : ℕ} {utxo : PrevOutput} {chain : List (Transaction η)} {fees : List ℤ}
      {chains : List (List (Transaction η))} {feess : List (List ℤ)}
      (hk : 24 * k < xs.length) (hu : utxos[k]? = some utxo)
      (hc : ChainBuilt L network utxo p (rand.sizing k) (segment xs k) chain fees)
      (tail : PlanBuilt utxos xs p rand (k + 1) chains feess) :
      PlanBuilt utxos xs p rand k (chain :: chains) (fees :: feess)

variable {L network}

theorem ChainBuilt.ne_nil {utxo : PrevOutput} {p : ChainParams} {aux : ℕ → Bytes}
    {xs : List InscriptionTxCtxData} {chain : List (Transaction η)} {fees : List ℤ}
    (h : ChainBuilt L network utxo p aux xs chain fees) : chain ≠ [] := by
  cases h; simp

/-- The tool after the planner's passes from segment `k` on: the chains appended and their
fees and context indices recorded. -/
def planned (tool : ChainInscriptionTool η) (k : ℕ) (chains : List (List (Transaction η)))
    (feess : List (List ℤ)) : ChainInscriptionTool η :=
  { tool.recordAll (planFees k feess) (planMappings tool.inscriptionTxCtxDataList k feess) with
    txChains := tool.txChains ++ chains }

/-- **The planner loop.** From segment `k`, with enough passes left, a successful loop has built
the plan's chains and stops exactly at the last inscription. -/
theorem planLoop_eq_ok {rand : RandomDraws} {utxos : List PrevOutput} {p : ChainParams}
    {xs : List InscriptionTxCtxData} {fuel k : ℕ} {tool tool' : ChainInscriptionTool η} {s : ℕ}
    (hxs : tool.inscriptionTxCtxDataList = xs) (hk : tool.txChains.length = k)
    (hfuel : xs.length ≤ 24 * (k + fuel))
    (h : planLoop L network rand utxos p fuel (min (24 * k) xs.length) k tool = .ok (s, tool')) :
    s = xs.length ∧ ∃ chains feess,
      PlanBuilt L network utxos xs p rand k chains feess ∧ tool' = planned tool k chains feess := by
  induction fuel generalizing k tool with
  | zero =>
    simp only [planLoop, Except.pure_eq_ok, Prod.mk.injEq] at h
    obtain ⟨rfl, rfl⟩ := h
    refine ⟨by omega, [], [], .done (by omega), ?_⟩
    cases tool; simp [planned, planFees, planMappings]
  | succ fuel ih =>
    simp only [planLoop, hxs] at h
    by_cases hlt : 24 * k < xs.length
    swap
    · simp only [show ¬ min (24 * k) xs.length < xs.length by omega, if_false,
        Except.pure_eq_ok, Prod.mk.injEq] at h
      obtain ⟨rfl, rfl⟩ := h
      refine ⟨by omega, [], [], .done (by omega), ?_⟩
      cases tool; simp [planned, planFees, planMappings]
    have hstart : min (24 * k) xs.length = 24 * k := by omega
    by_cases hku : k < utxos.length
    swap
    · simp [hstart, hlt, show k ≥ utxos.length by omega] at h
    obtain ⟨hsl, hpos⟩ := slice_length_of_lt xs hlt
    simp only [hstart, hlt, if_true, ge_iff_le, show ¬ utxos.length ≤ k by omega, dif_neg,
      not_false_eq_true, hsl, hpos, or_false, ne_eq, not_true_eq_false, if_false] at h
    obtain ⟨⟨chain, tool₁⟩, hb, h⟩ := Except.bind_eq_ok.1 h
    have hseg : (segment xs k).length ≠ 0 := by
      rw [length_segment]; omega
    rw [hk] at hb
    obtain ⟨chain, fees, hcb, hres⟩ := buildSingleUtxoChain_eq_ok
      (List.ne_nil_of_length_pos (Nat.pos_of_ne_zero hseg)) hb
    simp only [Prod.mk.injEq] at hres
    obtain ⟨rfl, rfl⟩ := hres
    have hnext : 24 * k + min (xs.length - 24 * k) maxInscriptionsPerChain =
        min (24 * (k + 1)) xs.length := by
      simp only [maxInscriptionsPerChain_eq]; omega
    simp only [List.length_pos.2 hcb.ne_nil, if_true, hnext, hk] at h
    obtain ⟨hs, chains, feess, hpb, rfl⟩ := ih (by simp [hxs]) (by simp [hk]) (by omega) h
    refine ⟨hs, chain :: chains, fees :: feess, .chain hlt (by simp [hku]) hcb hpb, ?_⟩
    subst hxs
    cases tool
    simp [planned, ChainInscriptionTool.recordAll, planFees, planMappings, List.sum_append,
      add_assoc]

/-- A planner loop that succeeds with an inscription left to place built a chain, so the final
change address was not empty. -/
theorem planLoop_finalChangeAddress_ne {rand : RandomDraws} {utxos : List PrevOutput}
    {p : ChainParams} {fuel start u : ℕ} {tool : ChainInscriptionTool η}
    {r : ℕ × ChainInscriptionTool η} (hfuel : 0 < fuel)
    (hstart : start < tool.inscriptionTxCtxDataList.length)
    (h : planLoop L network rand utxos p fuel start u tool = .ok r) :
    p.finalChangeAddress ≠ "" := by
  obtain _ | fuel := fuel
  · exact absurd hfuel (Nat.lt_irrefl 0)
  simp only [planLoop, hstart, if_true] at h
  split at h
  · cases h
  split at h
  · cases h
  rename_i hslice
  obtain ⟨_, hb, -⟩ := Except.bind_eq_ok.1 h
  exact buildSingleUtxoChain_finalChangeAddress_ne
    (fun hnil => hslice (Or.inl (by rw [hnil]; rfl))) hb

/-- `buildEnhancedInscriptionChains` with funding outputs and inscriptions succeeds only with a
non-empty final change address. -/
theorem buildEnhancedInscriptionChains_finalChangeAddress_ne {rand : RandomDraws}
    {tool tool' : ChainInscriptionTool η} {utxos : List PrevOutput} {p : ChainParams}
    (hu : utxos ≠ []) (hxs : tool.inscriptionTxCtxDataList ≠ [])
    (h : buildEnhancedInscriptionChains L network rand tool utxos p = .ok tool') :
    p.finalChangeAddress ≠ "" := by
  have hlen : 0 < tool.inscriptionTxCtxDataList.length := List.length_pos.2 hxs
  simp only [buildEnhancedInscriptionChains, List.length_eq_zero, hu, if_false,
    show tool.inscriptionTxCtxDataList.length ≠ 0 by omega] at h
  obtain ⟨_, hl, -⟩ := Except.bind_eq_ok.1 h
  exact planLoop_finalChangeAddress_ne hlen hlen hl

end ChainInscription
