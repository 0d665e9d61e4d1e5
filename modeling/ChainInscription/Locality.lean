import ChainInscription.Batches

/-!
# Every chain is built from its own inputs only

Chain `c` of a result is built on funding output `c` from the inscriptions `24 c` to
`24 c + 23`, with the request's settings and the key of its first funding output, and it is
signed and described from them alone. So two requests that agree on these give the same chain
`c`, the same ids and the same `LastTxInfo`, whatever their other funding outputs and
inscriptions (`inscribeChain_chain_local_same_draws`); with other draws, the same up to the hex of
its transactions (`inscribeChain_chain_local`).

The proof compares two successful runs at chain `c`. The assembler is a function of its inputs
(`ChainBuilt.unique`), the contexts of segment `c` are made from the same inscriptions with the
same key, and the fee ledger and the context mapping of a planned tool give chain `c` the
entries of chain `c`'s own build (`contextOf_planned_congr`), which the signer and the packager
read and nothing else.
-/

namespace ChainInscription

variable {η : Type} {L : BitcoinLib η} {network : Network} {rand : RandomDraws}

/-! ## The assembler is a function -/

section Unique
variable {utxo : PrevOutput} {first : InscriptionTxCtxData} {p : ChainParams}

/-- The reveal loop builds one list of reveals and fees from its inputs: the change script and
the fee of each reveal are determined, and so is whether its change is kept or dropped. -/
theorem RevealsBuilt.unique {prev : Transaction η} {v : ℤ} {k : ℕ}
    {xs : List InscriptionTxCtxData} {txs txs' : List (Transaction η)} {fees fees' : List ℤ}
    (h : RevealsBuilt L network utxo first p prev v k xs txs fees)
    (h' : RevealsBuilt L network utxo first p prev v k xs txs' fees') :
    txs = txs' ∧ fees = fees' := by
  induction h generalizing txs' fees' with
  | nil => cases h'; exact ⟨rfl, rfl⟩
  | keep hcs hfee hmin _ ih =>
    cases h' with
    | keep hcs' hfee' _ tail' =>
      obtain rfl := Except.ok.inj (hcs.symm.trans hcs')
      obtain rfl := ChargedFee.unique hfee hfee'
      obtain ⟨rfl, rfl⟩ := ih tail'
      exact ⟨rfl, rfl⟩
    | drop hcs' _ hf' hshort _ =>
      obtain rfl := Except.ok.inj (hcs.symm.trans hcs')
      have := ChargedFee.unique hfee hf'
      omega
  | drop hcs hfee hf hshort _ =>
    cases h' with
    | keep hcs' hfee' hmin' _ =>
      obtain rfl := Except.ok.inj (hcs.symm.trans hcs')
      have := ChargedFee.unique hf hfee'
      omega
    | drop hcs' hfee' _ _ _ =>
      obtain rfl := Except.ok.inj (hcs.symm.trans hcs')
      obtain rfl := ChargedFee.unique hfee hfee'
      exact ⟨rfl, rfl⟩

/-- The assembler builds one chain and one list of fees from a funding output, a segment and
the settings. -/
theorem ChainBuilt.unique {aux : ℕ → Bytes} {xs : List InscriptionTxCtxData}
    {chain chain' : List (Transaction η)} {fees fees' : List ℤ}
    (h : ChainBuilt L network utxo p aux xs chain fees)
    (h' : ChainBuilt L network utxo p aux xs chain' fees') : chain = chain' ∧ fees = fees' := by
  cases h with
  | mk hfee _ reveals =>
    cases h' with
    | mk hfee' _ reveals' =>
      obtain rfl := ChargedFee.unique hfee hfee'
      obtain ⟨rfl, rfl⟩ := reveals.unique reveals'
      exact ⟨rfl, rfl⟩

end Unique

/-- A `mapM` that succeeds twice on the same list returns the same list. -/
theorem forall₂_ok_unique {α β ε : Type} {f : α → Except ε β} {as : List α} {bs bs' : List β}
    (h : List.Forall₂ (fun a b => f a = .ok b) as bs)
    (h' : List.Forall₂ (fun a b => f a = .ok b) as bs') : bs = bs' := by
  induction h generalizing bs' with
  | nil => cases h'; rfl
  | cons hab _ ih =>
    cases h' with
    | cons hab' hrest' => rw [Except.ok.inj (hab.symm.trans hab'), ih hrest']

theorem forall₂_segment {α β : Type} {R : α → β → Prop} {as : List α} {bs : List β}
    (h : List.Forall₂ R as bs) (k : ℕ) : List.Forall₂ R (segment as k) (segment bs k) := by
  simpa only [segment_eq] using List.forall₂_take 24 (List.forall₂_drop (24 * k) h)

theorem segment_eq_nil_iff {α : Type} {xs : List α} {k : ℕ} :
    segment xs k = [] ↔ xs.length ≤ 24 * k := by
  rw [← List.length_eq_zero, length_segment]
  omega

/-! ## One run, taken apart -/

/-- A built tool is a plan of its contexts, each made from an inscription with the first funding
output's key, signed chain by chain by the signer. -/
theorem newChainInscriptionTool_planned {request : InscriptionRequest}
    {tool : ChainInscriptionTool η} (h : newChainInscriptionTool L network rand request = .ok tool) :
    ∃ primary rest ctxs chains feess, request.commitTxPrevOutputList = primary :: rest ∧
      List.Forall₂ (fun d x => createInscriptionTxCtxData L network d primary.privateKey = .ok x)
        request.inscriptionDataList ctxs ∧
      (∀ u ∈ request.commitTxPrevOutputList, u.privateKey ≠ "") ∧
      PlanBuilt L network request.commitTxPrevOutputList ctxs request.chainParams rand 0 chains feess ∧
      signChains L network rand (planned (startTool network ctxs) 0 chains feess)
        request.commitTxPrevOutputList chains 0 = .ok tool.txChains ∧
      tool = { planned (startTool network ctxs) 0 chains feess with txChains := tool.txChains } := by
  unfold newChainInscriptionTool at h
  split at h
  · cases h
  next primary rest hl =>
  split at h
  · cases h
  obtain ⟨⟨⟩, hk, h⟩ := Except.bind_eq_ok.1 h
  obtain ⟨ctxs, hctxs, h⟩ := Except.bind_eq_ok.1 h
  obtain ⟨plan, hplan, hs⟩ := Except.bind_eq_ok.1 h
  have hplan' : buildEnhancedInscriptionChains L network rand (startTool network ctxs)
      request.commitTxPrevOutputList request.chainParams = .ok plan := hplan
  obtain ⟨chains, feess, hpb, rfl⟩ := buildEnhancedInscriptionChains_eq_ok rfl (by simp [hl]) hplan'
  obtain ⟨signed, hsc, rfl⟩ := signAllTransactions_eq_ok hs
  exact ⟨primary, rest, ctxs, chains, feess, hl, forall₂_of_mapM_eq_ok hctxs,
    checkPrivateKeys_eq_ok hk, hpb, by simpa using hsc, rfl⟩

/-! ## Two plans at chain `c` -/

section Plans
variable {utxos utxos₂ : List PrevOutput} {p : ChainParams} {tool tool₂ : ChainInscriptionTool η}
  {chains chains₂ : List (List (Transaction η))} {feess feess₂ : List (List ℤ)}

/-- Two plans whose chain `c` is built on the same funding output from the same segment with the
same settings have the same chain `c` and the same fees for it. -/
theorem PlanBuilt.getElem?_congr {xs xs₂ : List InscriptionTxCtxData} {c : ℕ}
    (h : PlanBuilt L network utxos xs p rand 0 chains feess)
    (h₂ : PlanBuilt L network utxos₂ xs₂ p rand 0 chains₂ feess₂) (hu : utxos[c]? = utxos₂[c]?)
    (hseg : segment xs c = segment xs₂ c) :
    chains[c]? = chains₂[c]? ∧ feess[c]? = feess₂[c]? := by
  obtain ⟨hl, hfl⟩ := h.length_eq
  obtain ⟨hl₂, hfl₂⟩ := h₂.length_eq
  by_cases hc : 24 * c < xs.length
  · have hc₂ : 24 * c < xs₂.length := by
      by_contra hn
      exact length_segment_pos hc (hseg.trans (segment_eq_nil_iff.2 (by omega)))
    obtain ⟨chain, hch⟩ : ∃ chain, chains[c]? = some chain :=
      ⟨_, List.getElem?_eq_getElem (by simp only [hl, chainCount]; omega)⟩
    obtain ⟨chain₂, hch₂⟩ : ∃ chain, chains₂[c]? = some chain :=
      ⟨_, List.getElem?_eq_getElem (by simp only [hl₂, chainCount]; omega)⟩
    obtain ⟨u, fees, hu₁, hf, -, hcb⟩ := h.getElem hch
    obtain ⟨u₂, fees₂, hu₂, hf₂, -, hcb₂⟩ := h₂.getElem hch₂
    rw [Nat.zero_add] at hu₁ hu₂ hcb hcb₂
    obtain rfl : u = u₂ := Option.some.inj (hu₁.symm.trans (hu.trans hu₂))
    rw [hseg] at hcb
    obtain ⟨rfl, rfl⟩ := hcb.unique hcb₂
    exact ⟨hch.trans hch₂.symm, hf.trans hf₂.symm⟩
  · have hc₂ : xs₂.length ≤ 24 * c :=
      segment_eq_nil_iff.1 (hseg.symm.trans (segment_eq_nil_iff.2 (by omega)))
    have hn : chains.length ≤ c := by simp only [hl, chainCount]; omega
    have hn₂ : chains₂.length ≤ c := by simp only [hl₂, chainCount]; omega
    rw [List.getElem?_eq_none hn, List.getElem?_eq_none hn₂, List.getElem?_eq_none (by omega),
      List.getElem?_eq_none (by omega)]
    exact ⟨rfl, rfl⟩

/-- A planned tool gives transaction `t` of chain `c` no context when chain `c` has no
transaction `t`. -/
theorem contextOf_planned_of_le (hf : tool.Fresh)
    (h : PlanBuilt L network utxos tool.inscriptionTxCtxDataList p rand 0 chains feess) {c t : ℕ}
    (ht : ∀ chain, chains[c]? = some chain → chain.length ≤ t) :
    contextOf (planned tool 0 chains feess) c t = none := by
  have hnot : (c, t) ∉ txKeys 0 (feess.map List.length) := by
    rw [mem_txKeys, h.map_length]
    rintro ⟨-, n, hn, htn⟩
    rw [Nat.sub_zero, List.getElem?_map] at hn
    obtain ⟨chain, hc, rfl⟩ := Option.map_eq_some'.1 hn
    exact absurd (ht chain hc) (by omega)
  simp only [contextOf, planned, ChainInscriptionTool.recordAll, hf.chainContextMapping_eq,
    List.nil_append, h.planMappings_eq, List.find?_map]
  rw [List.find?_eq_none.2 fun ct hct hpc => hnot (by
    obtain ⟨c', t'⟩ := ct
    simp only [Function.comp_apply, decide_eq_true_eq] at hpc
    obtain ⟨rfl, rfl⟩ := hpc
    exact hct)]
  rfl

/-- **Two plans agree on chain `c`'s contexts.** When chain `c` has the same fees in two plans on
fresh tools whose contexts agree on segment `c`, the mapping gives each transaction of chain `c`
the same context in both. -/
theorem contextOf_planned_congr (hf : tool.Fresh) (hf₂ : tool₂.Fresh)
    (h : PlanBuilt L network utxos tool.inscriptionTxCtxDataList p rand 0 chains feess)
    (h₂ : PlanBuilt L network utxos₂ tool₂.inscriptionTxCtxDataList p rand 0 chains₂ feess₂) {c : ℕ}
    (hch : chains[c]? = chains₂[c]?)
    (hseg : segment tool.inscriptionTxCtxDataList c = segment tool₂.inscriptionTxCtxDataList c)
    (t : ℕ) :
    contextOf (planned tool₂ 0 chains₂ feess₂) c t = contextOf (planned tool 0 chains feess) c t := by
  by_cases ht : ∃ chain, chains[c]? = some chain ∧ t < chain.length
  · obtain ⟨chain, hc, ht⟩ := ht
    obtain ⟨_, _, _, _, -, hcb⟩ := h.getElem hc
    rw [Nat.zero_add] at hcb
    have hlen := hcb.length_eq.1
    rw [contextOf_planned hf h hc ht, contextOf_planned hf₂ h₂ (hch ▸ hc) ht]
    rcases t with _ | t
    · rfl
    · have ht24 : t < 24 := by
        have := length_segment tool.inscriptionTxCtxDataList c
        omega
      simp only [ctxIndexOf, Nat.add_one_ne_zero, if_false, Option.some_bind]
      rw [show 24 * c + (t + 1) - 1 = 24 * c + t by omega, ← getElem?_segment _ _ ht24,
        ← getElem?_segment _ _ ht24, hseg]
  · push_neg at ht
    rw [contextOf_planned_of_le hf h ht,
      contextOf_planned_of_le hf₂ h₂ fun chain hc => ht chain (hch ▸ hc)]

end Plans

/-- The packager describes a last transaction from the fee and the context the tool records for
it and from the request's settings only. -/
theorem lastTxInfo_congr {tool tool₂ : ChainInscriptionTool η}
    {request request₂ : InscriptionRequest} {c c₂ t : ℕ}
    (hfee : ledgerFee tool₂ c₂ t = ledgerFee tool c t)
    (hctx : contextOf tool₂ c₂ t = contextOf tool c t) (hnet : tool₂.network = tool.network)
    (hp : request₂.chainParams = request.chainParams) (last prev : Transaction η) (i : ℕ)
    (v : ℤ) :
    lastTxInfo L tool₂ request₂ c₂ t last prev i v = lastTxInfo L tool request c t last prev i v := by
  unfold ledgerFee at hfee
  unfold contextOf at hctx
  have hch : request₂.changeAddress = request.changeAddress :=
    congrArg ChainParams.finalChangeAddress hp
  have hrv : request₂.revealOutValueOrDefault = request.revealOutValueOrDefault :=
    congrArg ChainParams.revealOutValue hp
  have hmc : request₂.minChangeValueOrDefault = request.minChangeValueOrDefault :=
    congrArg ChainParams.minChangeValue hp
  simp only [lastTxInfo, hfee, hctx, hnet, hch, hrv, hmc]

/-! ## Two requests at chain `c` -/

section Request
variable {request request₂ : InscriptionRequest} {tool tool₂ : ChainInscriptionTool η} {c : ℕ}

/-- **Chain `c` of two built tools.** Two requests with the same settings, the same first key,
the same funding output `c` and the same inscriptions `24 c` to `24 c + 23` build tools with the
same signed chain `c`, which the tools describe with the same fees and contexts. -/
theorem newChainInscriptionTool_chain_local
    (hp : request.chainParams = request₂.chainParams)
    (hkey : request.commitTxPrevOutputList[0]?.map PrevOutput.privateKey =
      request₂.commitTxPrevOutputList[0]?.map PrevOutput.privateKey)
    (hu : request.commitTxPrevOutputList[c]? = request₂.commitTxPrevOutputList[c]?)
    (hseg : segment request.inscriptionDataList c = segment request₂.inscriptionDataList c)
    (h : newChainInscriptionTool L network rand request = .ok tool)
    (h₂ : newChainInscriptionTool L network rand request₂ = .ok tool₂) :
    tool.txChains[c]? = tool₂.txChains[c]? ∧ ∀ t,
      ledgerFee tool₂ c t = ledgerFee tool c t ∧ contextOf tool₂ c t = contextOf tool c t := by
  obtain ⟨primary, rest, ctxs, chains, feess, hl, hctxs, hkeys, hpb, hsc, htool⟩ :=
    newChainInscriptionTool_planned h
  obtain ⟨primary₂, rest₂, ctxs₂, chains₂, feess₂, hl₂, hctxs₂, -, hpb₂, hsc₂, htool₂⟩ :=
    newChainInscriptionTool_planned h₂
  rw [hl, hl₂] at hkey
  simp only [List.getElem?_cons_zero, Option.map_some', Option.some.injEq] at hkey
  rw [← hkey] at hctxs₂
  have hsegc : segment ctxs c = segment ctxs₂ c :=
    forall₂_ok_unique (forall₂_segment hctxs c) (by rw [hseg]; exact forall₂_segment hctxs₂ c)
  rw [hp] at hpb
  obtain ⟨hch, hfs⟩ := hpb.getElem?_congr hpb₂ hu hsegc
  have hctx := contextOf_planned_congr (startTool_fresh network ctxs)
    (startTool_fresh network ctxs₂) hpb hpb₂ hch hsegc
  refine ⟨?_, fun t => ⟨?_, ?_⟩⟩
  · have hlen := (signChains_eq_ok hsc).1
    have hlen₂ := (signChains_eq_ok hsc₂).1
    cases hc : chains[c]? with
    | none =>
      have hn := List.getElem?_eq_none_iff.1 hc
      have hn₂ := List.getElem?_eq_none_iff.1 (hch.symm.trans hc)
      rw [List.getElem?_eq_none (by omega), List.getElem?_eq_none (by omega)]
    | some chain =>
      obtain ⟨u, _, hu', -, -, -⟩ := hpb.getElem hc
      rw [Nat.zero_add] at hu'
      have hkey' := hkeys u (List.getElem?_mem hu')
      have hlt := (List.getElem?_eq_some_iff.1 hc).1
      have hlt₂ := (List.getElem?_eq_some_iff.1 (hch.symm.trans hc)).1
      obtain ⟨s, hs⟩ : ∃ s, tool.txChains[c]? = some s :=
        ⟨_, List.getElem?_eq_getElem (by omega)⟩
      obtain ⟨s₂, hs₂⟩ : ∃ s, tool₂.txChains[c]? = some s :=
        ⟨_, List.getElem?_eq_getElem (by omega)⟩
      have h₁ := (signChains_eq_ok hsc).2 c chain s hc hs u (by rwa [Nat.zero_add]) hkey'
      have h₂' := (signChains_eq_ok hsc₂).2 c chain s₂ (hch.symm.trans hc) hs₂ u
        (by rw [Nat.zero_add]; exact hu.symm.trans hu') hkey'
      rw [Nat.zero_add] at h₁ h₂'
      rw [hs, hs₂, Except.ok.inj ((signChain_congr rfl hctx h₁).symm.trans h₂')]
  · rw [htool, htool₂]
    show ledgerFee (planned (startTool network ctxs₂) 0 chains₂ feess₂) c t =
      ledgerFee (planned (startTool network ctxs) 0 chains feess) c t
    rw [ledgerFee_planned (startTool_fresh network ctxs₂),
      ledgerFee_planned (startTool_fresh network ctxs), hfs]
  · rw [htool, htool₂]
    exact hctx t

/-- Chains are independent, with the same draws: two requests on which `inscribeChain`
succeeds, with the same settings and the same first key, that agree on funding output `c` and on the inscriptions `24 c`
to `24 c + 23`, return the same chain `c`: the same transactions, the same ids and the same
`LastTxInfo`. What the other funding outputs and inscriptions are does not matter. -/
theorem inscribeChain_chain_local_same_draws (hp : request.chainParams = request₂.chainParams)
    (hkey : request.commitTxPrevOutputList[0]?.map PrevOutput.privateKey =
      request₂.commitTxPrevOutputList[0]?.map PrevOutput.privateKey)
    (hu : request.commitTxPrevOutputList[c]? = request₂.commitTxPrevOutputList[c]?)
    (hseg : segment request.inscriptionDataList c = segment request₂.inscriptionDataList c)
    (h : (inscribeChain L network rand request).success = true)
    (h₂ : (inscribeChain L network rand request₂).success = true) :
    (inscribeChain L network rand request).txChains[c]? =
        (inscribeChain L network rand request₂).txChains[c]? ∧
      (inscribeChain L network rand request).txChainTxIds[c]? =
        (inscribeChain L network rand request₂).txChainTxIds[c]? ∧
      (inscribeChain L network rand request).lastTxDetails[c]? =
        (inscribeChain L network rand request₂).lastTxDetails[c]? := by
  obtain ⟨tool, -, hn, -⟩ := inscribeChain_eq_of_success h
  obtain ⟨tool₂, -, hn₂, -⟩ := inscribeChain_eq_of_success h₂
  obtain ⟨hc, hloc⟩ := newChainInscriptionTool_chain_local hp hkey hu hseg hn hn₂
  obtain ⟨_, _, _, hr⟩ := newChainInscriptionTool_eq_ok hn
  obtain ⟨_, _, _, hr₂⟩ := newChainInscriptionTool_eq_ok hn₂
  have hres := hr.inscribeChain_eq hn
  have hres₂ := hr₂.inscribeChain_eq hn₂
  refine ⟨by simp [hres.txChains_eq, hres₂.txChains_eq, hc],
    by simp [hres.txChainTxIds_eq, hres₂.txChainTxIds_eq, hc], ?_⟩
  cases hs : tool.txChains[c]? with
  | none =>
    have hn := List.getElem?_eq_none_iff.1 hs
    have hn₂ := List.getElem?_eq_none_iff.1 (hc.symm.trans hs)
    rw [List.getElem?_eq_none (by rw [hres.lastTxDetails_length]; exact hn),
      List.getElem?_eq_none (by rw [hres₂.lastTxDetails_length]; exact hn₂)]
  | some schain =>
    obtain ⟨n, last, prev, input, o, hn2, hlast, hprev, hin, ho, hd⟩ :=
      hres.lastTxDetails_getElem c schain hs
    obtain ⟨n₂, last₂, prev₂, input₂, o₂, hn2₂, hlast₂, hprev₂, hin₂, ho₂, hd₂⟩ :=
      hres₂.lastTxDetails_getElem c schain (hc.symm.trans hs)
    obtain rfl : n = n₂ := by omega
    obtain rfl : last₂ = last := Option.some.inj (hlast₂.symm.trans hlast)
    obtain rfl : prev₂ = prev := Option.some.inj (hprev₂.symm.trans hprev)
    obtain rfl : input₂ = input := Option.some.inj (hin₂.symm.trans hin)
    obtain rfl : o₂ = o := Option.some.inj (ho₂.symm.trans ho)
    have hnet : tool₂.network = tool.network := by rw [hr.tool_eq, hr₂.tool_eq]; rfl
    rw [hd, hd₂, lastTxInfo_congr (hloc (n + 1)).1 (hloc (n + 1)).2 hnet hp.symm]

/-- **Chains are independent.** On a library whose size reads only a transaction's shape, two
requests on which `inscribeChain` succeeds, with any draws, the same settings and the same first
key, that agree on funding output `c` and on the inscriptions `24 c` to `24 c + 23`, return the
same chain `c` up to the hex of its transactions: the same ids, and the same chain and
`LastTxInfo` once their hex is erased. -/
theorem inscribeChain_chain_local (hsize : ShapeSized L network) {rand₂ : RandomDraws}
    (hp : request.chainParams = request₂.chainParams)
    (hkey : request.commitTxPrevOutputList[0]?.map PrevOutput.privateKey =
      request₂.commitTxPrevOutputList[0]?.map PrevOutput.privateKey)
    (hu : request.commitTxPrevOutputList[c]? = request₂.commitTxPrevOutputList[c]?)
    (hseg : segment request.inscriptionDataList c = segment request₂.inscriptionDataList c)
    (h : (inscribeChain L network rand request).success = true)
    (h₂ : (inscribeChain L network rand₂ request₂).success = true) :
    (inscribeChain L network rand request).eraseHex.txChains[c]? =
        (inscribeChain L network rand₂ request₂).eraseHex.txChains[c]? ∧
      (inscribeChain L network rand request).txChainTxIds[c]? =
        (inscribeChain L network rand₂ request₂).txChainTxIds[c]? ∧
      (inscribeChain L network rand request).eraseHex.lastTxDetails[c]? =
        (inscribeChain L network rand₂ request₂).eraseHex.lastTxDetails[c]? := by
  have hd := inscribeChain_draws hsize rand₂ rand request₂
  obtain ⟨hc, hi, hl⟩ := inscribeChain_chain_local_same_draws hp hkey hu hseg h
    ((congrArg ChainInscribeResult.success hd).symm.trans h₂)
  refine ⟨?_, hi.trans (congrArg (·.txChainTxIds[c]?) hd).symm, ?_⟩ <;>
  · rw [hd]
    simp only [ChainInscribeResult.eraseHex, List.getElem?_map, hc, hl]

/-- Two requests on the reference library that fund their first chain differently and their
second chain alike, run with different draws, give the same second chain up to its hex. -/
theorem inscribeChain_chain_local_at_second_chain :
    ShapeSized refLib .testnet ∧
      (refRequest [refFunding 100000, refFunding 20000] 25).chainParams =
        (refRequest [refFunding 90000, refFunding 20000] 25).chainParams ∧
      (refRequest [refFunding 100000, refFunding 20000] 25).commitTxPrevOutputList[0]?.map
          PrevOutput.privateKey =
        (refRequest [refFunding 90000, refFunding 20000] 25).commitTxPrevOutputList[0]?.map
          PrevOutput.privateKey ∧
      (refRequest [refFunding 100000, refFunding 20000] 25).commitTxPrevOutputList[1]? =
        (refRequest [refFunding 90000, refFunding 20000] 25).commitTxPrevOutputList[1]? ∧
      segment (refRequest [refFunding 100000, refFunding 20000] 25).inscriptionDataList 1 =
        segment (refRequest [refFunding 90000, refFunding 20000] 25).inscriptionDataList 1 ∧
      (inscribeChain refLib .testnet refDraws
        (refRequest [refFunding 100000, refFunding 20000] 25)).success = true ∧
      (inscribeChain refLib .testnet refOnesDraws
        (refRequest [refFunding 90000, refFunding 20000] 25)).success = true ∧
      (inscribeChain refLib .testnet refDraws
          (refRequest [refFunding 100000, refFunding 20000] 25)).eraseHex.txChains[1]? =
        (inscribeChain refLib .testnet refOnesDraws
          (refRequest [refFunding 90000, refFunding 20000] 25)).eraseHex.txChains[1]? ∧
      (inscribeChain refLib .testnet refDraws
          (refRequest [refFunding 100000, refFunding 20000] 25)).txChainTxIds[1]? =
        (inscribeChain refLib .testnet refOnesDraws
          (refRequest [refFunding 90000, refFunding 20000] 25)).txChainTxIds[1]? ∧
      (inscribeChain refLib .testnet refDraws
          (refRequest [refFunding 100000, refFunding 20000] 25)).eraseHex.lastTxDetails[1]? =
        (inscribeChain refLib .testnet refOnesDraws
          (refRequest [refFunding 90000, refFunding 20000] 25)).eraseHex.lastTxDetails[1]? :=
  have hs : (inscribeChain refLib .testnet refDraws
      (refRequest [refFunding 100000, refFunding 20000] 25)).success = true := by decide
  have hs₂ : (inscribeChain refLib .testnet refOnesDraws
      (refRequest [refFunding 90000, refFunding 20000] 25)).success = true := by decide
  ⟨refLib_shapeSized .testnet, rfl, rfl, rfl, rfl, hs, hs₂,
    inscribeChain_chain_local (refLib_shapeSized .testnet) rfl rfl rfl rfl hs hs₂⟩

end Request

end ChainInscription
