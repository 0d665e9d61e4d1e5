import ChainInscription.Run

/-!
# The layout and the shape of a successful result

What `inscribeChain` promises about the chains it returns, read off a run. The layout: as many
chains as `⌈n / 24⌉`, each with one commit on its own funding output and the reveals of its
segment of at most 24 inscriptions, so that reading the reveals chain by chain gives every
inscription once and in request order. The shape of each transaction: one input; a commit with
one output holding the funding amount less the commit's fee; reveals that pay `revealOutValue`
first and keep a change of at least `minChangeValue`, except that the last reveal of a chain may
drop it.
-/

namespace ChainInscription

variable {η : Type} {L : BitcoinLib η} {network : Network} {rand : RandomDraws}

theorem PlanBuilt.chainCount_le {utxos : List PrevOutput} {xs : List InscriptionTxCtxData}
    {p : ChainParams} {chains : List (List (Transaction η))} {feess : List (List ℤ)}
    (h : PlanBuilt L network utxos xs p rand 0 chains feess) :
    chainCount xs.length ≤ utxos.length := by
  have hl := h.length_eq.1
  rcases Nat.eq_zero_or_pos (chainCount xs.length) with h0 | hpos
  · omega
  obtain ⟨chain, hc⟩ : ∃ chain, chains[chainCount xs.length - 1]? = some chain :=
    ⟨_, List.getElem?_eq_getElem (by omega)⟩
  obtain ⟨_, _, hu, -⟩ := h.getElem hc
  have := (List.getElem?_eq_some_iff.1 hu).1
  omega

namespace ToolRun
variable {request : InscriptionRequest} {ctxs : List InscriptionTxCtxData}
  {chains : List (List (Transaction η))} {feess : List (List ℤ)} {tool : ChainInscriptionTool η}

theorem length_ctxs (hr : ToolRun L network rand request ctxs chains feess tool) :
    ctxs.length = request.inscriptionDataList.length := by
  obtain ⟨_, _, -, h⟩ := hr.contexts
  exact h.length_eq.symm

theorem length_getElem (hr : ToolRun L network rand request ctxs chains feess tool) {c : ℕ}
    {schain : List (Transaction η)} (hc : tool.txChains[c]? = some schain) :
    schain.length = min (ctxs.length - 24 * c) 24 + 1 := by
  obtain ⟨chain, hch, hlen, -⟩ := hr.getElem hc
  obtain ⟨_, _, -, -, -, hcb⟩ := hr.plan.getElem hch
  rw [hlen, hcb.length_eq.1, Nat.zero_add, length_segment]

end ToolRun

/-! ## The layout -/

variable (L network) in
/-- The layout of the chains of `tool` for `request`: the contexts are those of the request's
inscriptions; there are `⌈n / 24⌉` chains; chain `k` holds a commit and `min 24 (n - 24 k)`
reveals; its commit spends funding output `k`; its reveal `t + 1` pays first to the recipient of
inscription `24 k + t`; and reading the reveals chain by chain gives every inscription once, in
request order. -/
structure ChainLayout (request : InscriptionRequest) (tool : ChainInscriptionTool η) : Prop where
  contexts : ∃ primary rest, request.commitTxPrevOutputList = primary :: rest ∧
    List.Forall₂ (fun d x => createInscriptionTxCtxData L network d primary.privateKey = .ok x)
      request.inscriptionDataList tool.inscriptionTxCtxDataList
  length_eq : tool.txChains.length = chainCount request.inscriptionDataList.length
  chain_length : ∀ (k : ℕ) (chain : List (Transaction η)), tool.txChains[k]? = some chain →
    chain.length = 1 + min 24 (request.inscriptionDataList.length - 24 * k)
  commit_spends : ∀ (k : ℕ) (chain : List (Transaction η)) (commit : Transaction η),
    tool.txChains[k]? = some chain → chain[0]? = some commit →
    ∃ u, request.commitTxPrevOutputList[k]? = some u ∧
      commit.outpoints = [(L.txIdHash u.txId, u.vOut)]
  reveal_pays : ∀ (k : ℕ) (chain : List (Transaction η)) (t : ℕ) (tx : Transaction η),
    tool.txChains[k]? = some chain → chain[t + 1]? = some tx →
    ∃ x, tool.inscriptionTxCtxDataList[24 * k + t]? = some x ∧
      tx.outs.head?.map (·.script) = some x.revealPkScript
  reveals_in_order :
    (tool.txChains.map fun chain => chain.tail.map fun tx => tx.outs.head?.map (·.script)).flatten =
      tool.inscriptionTxCtxDataList.map fun x => some x.revealPkScript

theorem ToolRun.chainLayout {request : InscriptionRequest} {ctxs : List InscriptionTxCtxData}
    {chains : List (List (Transaction η))} {feess : List (List ℤ)} {tool : ChainInscriptionTool η}
    (hr : ToolRun L network rand request ctxs chains feess tool) :
    ChainLayout L network request tool := by
  have hf : (startTool network ctxs : ChainInscriptionTool η).Fresh := startTool_fresh network ctxs
  refine ⟨by rw [hr.ctxs_eq]; exact hr.contexts, ?_, fun k chain hc => ?_,
    fun k chain commit hc h0 => ?_, fun k chain t stx hc ht => ?_, ?_⟩
  · rw [hr.txChains_length, hr.plan.length_eq.1, hr.length_ctxs, Nat.sub_zero]
  · rw [hr.length_getElem hc, hr.length_ctxs]
    omega
  · obtain ⟨utxo, x, fee, hu, -, -, -, -, hs⟩ := hr.commit_getElem hc h0
    exact ⟨utxo, hu, by simp [hs.outs_eq.2.1]⟩
  · obtain ⟨_, _, _, _, _, x, _, _, -, -, -, hx, -, -, -, hstep, sig, rfl⟩ :=
      hr.reveal_getElem hc ht
    exact ⟨x, by rw [hr.ctxs_eq]; exact hx, by simp [hstep.outs_head]⟩
  · have hmap := hr.map_map_eq (fun tx => tx.outs.head?.map (·.script))
      (fun tx stx ho _ => by simp only [ho])
    have hflat := congrArg (List.map (Option.map (·.script))) hr.plan.flatten_outs_head
    simp only [List.map_flatten, List.map_map, Nat.mul_zero, List.drop_zero] at hflat
    calc (tool.txChains.map fun chain =>
            chain.tail.map fun tx => tx.outs.head?.map (·.script)).flatten
        = ((tool.txChains.map (·.map fun tx => tx.outs.head?.map (·.script))).map
            List.tail).flatten := by simp [List.map_map, Function.comp_def, List.map_tail]
      _ = ((chains.map (·.map fun tx => tx.outs.head?.map (·.script))).map List.tail).flatten := by
          rw [hmap]
      _ = tool.inscriptionTxCtxDataList.map fun x => some x.revealPkScript := by
          rw [hr.ctxs_eq]
          simpa [List.map_map, Function.comp_def] using hflat

/-- **The layout of a successful result.** With fewer funding outputs than `⌈n / 24⌉`,
`inscribeChain` fails. When it succeeds, its chains are those of the tool
`newChainInscriptionTool` built, laid out as `ChainLayout` says: `⌈n / 24⌉` chains, chain `k`
with `1 + min 24 (n - 24 k)` transactions, its commit spending funding output `k` and its reveal
`t + 1` paying inscription `24 k + t`'s recipient, every inscription revealed once and in order.
The planner's loop, which may run `n` passes, never stops early: a loop that succeeds has placed
every inscription, so the count check after it never fires. Nor does its slice-length check: a
pass with an inscription and a funding output left goes straight to the assembler. -/
theorem inscribeChain_chain_layout (request : InscriptionRequest) :
    (request.commitTxPrevOutputList.length < chainCount request.inscriptionDataList.length →
      (inscribeChain L network rand request).success = false) ∧
    ((inscribeChain L network rand request).success = true →
      ∃ tool, newChainInscriptionTool L network rand request = .ok tool ∧
        (inscribeChain L network rand request).txChains = tool.txChains.map (·.map L.txToHex) ∧
        ChainLayout L network request tool) ∧
    (∀ (tool tool' : ChainInscriptionTool η) (s : ℕ), tool.txChains = [] →
      planLoop L network rand request.commitTxPrevOutputList request.chainParams
        tool.inscriptionTxCtxDataList.length 0 0 tool = .ok (s, tool') →
      s = tool.inscriptionTxCtxDataList.length) ∧
    (∀ (fuel s u : ℕ) (tool : ChainInscriptionTool η), s < tool.inscriptionTxCtxDataList.length →
      (hu : u < request.commitTxPrevOutputList.length) →
      planLoop L network rand request.commitTxPrevOutputList request.chainParams (fuel + 1) s u
          tool = (do
        let (txChain, tool₁) ← buildSingleUtxoChain L network tool
          request.commitTxPrevOutputList[u] (slice tool.inscriptionTxCtxDataList s
            (s + min (tool.inscriptionTxCtxDataList.length - s) 24)) request.chainParams s
          tool.txChains.length (rand.sizing tool.txChains.length)
        planLoop L network rand request.commitTxPrevOutputList request.chainParams fuel
          (s + min (tool.inscriptionTxCtxDataList.length - s) 24) (u + 1)
          (if txChain.length > 0 then { tool₁ with txChains := tool₁.txChains ++ [txChain] }
            else tool₁))) := by
  refine ⟨fun hm => ?_, fun hs => ?_, fun tool tool' s hk h => ?_,
    fun fuel s u tool hs hu => planLoop_succ_of_lt hs hu⟩
  · by_contra hs
    obtain ⟨tool, -, hn, -⟩ := inscribeChain_eq_of_success (by simpa using hs)
    obtain ⟨ctxs, chains, feess, hr⟩ := newChainInscriptionTool_eq_ok hn
    have := hr.plan.chainCount_le
    rw [hr.length_ctxs] at this
    omega
  · obtain ⟨tool, -, hn, -⟩ := inscribeChain_eq_of_success hs
    obtain ⟨ctxs, chains, feess, hr⟩ := newChainInscriptionTool_eq_ok hn
    exact ⟨tool, hn, (hr.inscribeChain_eq hn).txChains_eq, hr.chainLayout⟩
  · have h' : planLoop L network rand request.commitTxPrevOutputList request.chainParams
        tool.inscriptionTxCtxDataList.length (min (24 * 0) tool.inscriptionTxCtxDataList.length)
        0 tool = .ok (s, tool') := by simpa using h
    exact (planLoop_eq_ok rfl (by simp [hk]) (by omega) h').1

/-- One funding output is too few for 25 inscriptions; one is enough for two, and the result is
laid out as promised. -/
theorem inscribeChain_chain_layout_at_samples :
    ((refRequest [refFunding 100000] 25).commitTxPrevOutputList.length <
        chainCount (refRequest [refFunding 100000] 25).inscriptionDataList.length ∧
      (inscribeChain refLib .testnet refDraws (refRequest [refFunding 100000] 25)).success = false) ∧
    ((inscribeChain refLib .testnet refDraws (refRequest [refFunding 20000] 2)).success = true ∧
      ∃ tool, newChainInscriptionTool refLib .testnet refDraws (refRequest [refFunding 20000] 2) = .ok tool ∧
        (inscribeChain refLib .testnet refDraws (refRequest [refFunding 20000] 2)).txChains =
          tool.txChains.map (·.map refLib.txToHex) ∧
        ChainLayout refLib .testnet (refRequest [refFunding 20000] 2) tool) :=
  ⟨⟨by decide, (inscribeChain_chain_layout _).1 (by decide)⟩,
    ⟨by decide, (inscribeChain_chain_layout _).2.1 (by decide)⟩⟩

/-! ## The shape of each transaction -/

variable (L network) in
/-- The shape of a chain funded by `u` whose commit was charged `commitFee`: every transaction
has one input; the commit has one output, the funding amount less its fee, which is not
negative; every reveal pays `revealOutValue` first; a reveal with another after it has two
outputs and keeps a change of at least `minChangeValue`; the last reveal does the same, paying
its change to the request's change address, or has only its first output. -/
structure ChainShaped (request : InscriptionRequest) (u : PrevOutput) (commitFee : ℤ)
    (chain : List (Transaction η)) : Prop where
  one_input : ∀ tx ∈ chain, tx.ins.length = 1
  commit_value : 0 ≤ (u.amount : ℤ) - commitFee
  commit_outs : ∀ commit, chain[0]? = some commit →
    commit.outs.map (·.value) = [u.amount - commitFee]
  reveal_value : ∀ (t : ℕ) (tx : Transaction η), chain[t + 1]? = some tx →
    tx.outs.head?.map (·.value) = some (request.revealOutValueOrDefault : ℤ)
  inner_change : ∀ (t : ℕ) (tx : Transaction η), chain[t + 1]? = some tx →
    t + 2 < chain.length → ∃ o, tx.outs.length = 2 ∧ tx.outs[1]? = some o ∧
      (request.minChangeValueOrDefault : ℤ) ≤ o.value
  final_change : ∀ (t : ℕ) (tx : Transaction η), chain[t + 1]? = some tx →
    t + 2 = chain.length → (∃ o, tx.outs.length = 2 ∧ tx.outs[1]? = some o ∧
      (request.minChangeValueOrDefault : ℤ) ≤ o.value ∧
      L.toOutputScript request.changeAddress network = .ok o.script) ∨ tx.outs.length = 1

theorem ToolRun.chainShaped {request : InscriptionRequest} {ctxs : List InscriptionTxCtxData}
    {chains : List (List (Transaction η))} {feess : List (List ℤ)} {tool : ChainInscriptionTool η}
    (hr : ToolRun L network rand request ctxs chains feess tool) {c : ℕ}
    {schain : List (Transaction η)} (hc : tool.txChains[c]? = some schain) :
    ∃ u f, request.commitTxPrevOutputList[c]? = some u ∧ ledgerFee tool c 0 = some f ∧
      ChainShaped L network request u f schain := by
  obtain ⟨stx, h0⟩ : ∃ stx, schain[0]? = some stx :=
    ⟨_, List.getElem?_eq_getElem (by rw [hr.length_getElem hc]; omega)⟩
  obtain ⟨u, x, f, hu, -, hf, -, hpaid, hs⟩ := hr.commit_getElem hc h0
  refine ⟨u, f, hu, hf, fun tx htx => ?_, hpaid, fun commit hcm => ?_, fun t tx ht => ?_,
    fun t tx ht hlt => ?_, fun t tx ht hlt => ?_⟩
  · obtain ⟨j, hj⟩ := List.mem_iff_getElem?.1 htx
    cases j with
    | zero =>
      rw [h0, Option.some.injEq] at hj
      subst hj
      simp [hs.outs_eq.2.2]
    | succ t =>
      obtain ⟨_, _, _, _, _, _, _, _, -, -, -, -, -, -, -, hstep, sig, rfl⟩ :=
        hr.reveal_getElem hc hj
      simp [hstep.ins_eq]
  · rw [h0, Option.some.injEq] at hcm
    subst hcm
    simp [hs.outs_eq.1]
  · obtain ⟨_, _, _, _, _, _, _, _, -, -, -, -, -, -, -, hstep, sig, rfl⟩ := hr.reveal_getElem hc ht
    simp [hstep.outs_head]
    rfl
  · obtain ⟨_, _, _, _, _, _, _, _, -, -, -, -, -, -, hlen, hstep, sig, rfl⟩ :=
      hr.reveal_getElem hc ht
    rcases hstep.outs_eq with ⟨cs, c', -, hmin, hout⟩ | ⟨hrest, -⟩
    · exact ⟨⟨cs, c'⟩, by simp [hout], by simp [hout], hmin⟩
    · have := List.drop_eq_nil_iff.1 hrest
      omega
  · obtain ⟨_, _, _, _, _, _, _, _, -, -, -, -, -, -, hlen, hstep, sig, rfl⟩ :=
      hr.reveal_getElem hc ht
    rcases hstep.outs_eq with ⟨cs, c', hcs, hmin, hout⟩ | ⟨-, hout⟩
    · rw [List.drop_eq_nil_of_le (by omega)] at hcs
      exact .inl ⟨⟨cs, c'⟩, by simp [hout], by simp [hout], hmin, hcs⟩
    · exact .inr (by simp [hout])

/-- **The shape of every transaction of a successful result.** When `inscribeChain` succeeds,
its chains are those of the tool `newChainInscriptionTool` built, and chain `c` is
`ChainShaped` for funding output `c` and the commit fee the ledger records: one input per
transaction; a commit with the single output `amount - fee ≥ 0`; reveals that pay
`revealOutValue` first; two outputs and a change of at least `minChangeValue` on every reveal
but the last, which may instead keep only its first output. -/
theorem inscribeChain_chain_shapes {request : InscriptionRequest}
    (h : (inscribeChain L network rand request).success = true) :
    ∃ tool, newChainInscriptionTool L network rand request = .ok tool ∧
      (inscribeChain L network rand request).txChains = tool.txChains.map (·.map L.txToHex) ∧
      ∀ c chain, tool.txChains[c]? = some chain → ∃ u f,
        request.commitTxPrevOutputList[c]? = some u ∧ ledgerFee tool c 0 = some f ∧
        ChainShaped L network request u f chain := by
  obtain ⟨tool, -, hn, -⟩ := inscribeChain_eq_of_success h
  obtain ⟨ctxs, chains, feess, hr⟩ := newChainInscriptionTool_eq_ok hn
  exact ⟨tool, hn, (hr.inscribeChain_eq hn).txChains_eq, fun c chain hc => hr.chainShaped hc⟩

/-- A funding output of 1200 satoshis for one inscription: the reveal drops its change. -/
theorem inscribeChain_chain_shapes_at_drop :
    (inscribeChain refLib .testnet refDraws (refRequest [refFunding 1200] 1)).success = true ∧
      ∃ tool, newChainInscriptionTool refLib .testnet refDraws (refRequest [refFunding 1200] 1) = .ok tool ∧
        (inscribeChain refLib .testnet refDraws (refRequest [refFunding 1200] 1)).txChains =
          tool.txChains.map (·.map refLib.txToHex) ∧
        ∀ c chain, tool.txChains[c]? = some chain → ∃ u f,
          (refRequest [refFunding 1200] 1).commitTxPrevOutputList[c]? = some u ∧
          ledgerFee tool c 0 = some f ∧
          ChainShaped refLib .testnet (refRequest [refFunding 1200] 1) u f chain :=
  ⟨by decide, inscribeChain_chain_shapes (by decide)⟩

/-! ## Where the value goes -/

variable (L network) in
/-- Where chain `c` of a result sends its value, for the contexts `xs` of the request's
inscriptions: the commit's only output to the commit script of inscription `24 c`; reveal
`t + 1` first to the recipient of inscription `24 c + t`, then its change, if it keeps one, to
the commit address of the next inscription or, for the last reveal, to the request's change
address. No transaction has a third output. -/
structure PaysTo (request : InscriptionRequest) (xs : List InscriptionTxCtxData) (c : ℕ)
    (chain : List (Transaction η)) : Prop where
  outs_length : ∀ tx ∈ chain, tx.outs.length ≤ 2
  commit_pays : ∀ commit, chain[0]? = some commit →
    ∃ x, xs[24 * c]? = some x ∧ commit.outs.map (·.script) = [x.commitTxAddressPkScript]
  reveal_pays : ∀ (t : ℕ) (tx : Transaction η), chain[t + 1]? = some tx →
    ∃ x, xs[24 * c + t]? = some x ∧ tx.outs.head?.map (·.script) = some x.revealPkScript
  change_next : ∀ (t : ℕ) (tx : Transaction η) (o : Output), chain[t + 1]? = some tx →
    tx.outs[1]? = some o → t + 2 < chain.length →
    ∃ y, xs[24 * c + t + 1]? = some y ∧ L.toOutputScript y.commitTxAddress network = .ok o.script
  change_final : ∀ (t : ℕ) (tx : Transaction η) (o : Output), chain[t + 1]? = some tx →
    tx.outs[1]? = some o → t + 2 = chain.length →
    L.toOutputScript request.changeAddress network = .ok o.script

/-- The change of reveal `t + 1` of chain `c` of a run pays to the address the assembler chose
for it: the next inscription's commit address, or the request's change address after the last
inscription of the chain. -/
theorem ToolRun.change_getElem {request : InscriptionRequest} {ctxs : List InscriptionTxCtxData}
    {chains : List (List (Transaction η))} {feess : List (List ℤ)} {tool : ChainInscriptionTool η}
    (hr : ToolRun L network rand request ctxs chains feess tool) {c t : ℕ}
    {schain : List (Transaction η)} {stx : Transaction η} {o : Output}
    (hc : tool.txChains[c]? = some schain) (ht : schain[t + 1]? = some stx)
    (ho : stx.outs[1]? = some o) :
    schain.length = (segment ctxs c).length + 1 ∧
      L.toOutputScript (changeAddressFor request.changeAddress ((segment ctxs c).drop (t + 1)))
        network = .ok o.script := by
  obtain ⟨_, _, _, _, _, _, _, _, -, -, -, -, -, -, hlen, hstep, sig, rfl⟩ :=
    hr.reveal_getElem hc ht
  refine ⟨hlen, ?_⟩
  rcases hstep.outs_eq with ⟨cs, c', hcs, -, hout⟩ | ⟨-, hout⟩
  · rw [Transaction.setWitness_outs, hout] at ho
    cases ho
    exact hcs
  · simp [hout] at ho

theorem ToolRun.paysTo {request : InscriptionRequest} {ctxs : List InscriptionTxCtxData}
    {chains : List (List (Transaction η))} {feess : List (List ℤ)} {tool : ChainInscriptionTool η}
    (hr : ToolRun L network rand request ctxs chains feess tool) {c : ℕ}
    {schain : List (Transaction η)} (hc : tool.txChains[c]? = some schain) :
    PaysTo L network request ctxs c schain := by
  refine ⟨fun tx htx => ?_, fun commit h0 => ?_, fun t tx ht => ?_, fun t tx o ht ho hlt => ?_,
    fun t tx o ht ho hlt => ?_⟩
  · obtain ⟨j, hj⟩ := List.mem_iff_getElem?.1 htx
    cases j with
    | zero =>
      obtain ⟨_, _, _, -, -, -, -, -, hs⟩ := hr.commit_getElem hc hj
      simp [hs.outs_eq.1]
    | succ t =>
      obtain ⟨_, _, _, _, _, _, _, _, -, -, -, -, -, -, -, hstep, sig, rfl⟩ :=
        hr.reveal_getElem hc hj
      rcases hstep.outs_eq with ⟨_, _, -, -, hout⟩ | ⟨-, hout⟩ <;> simp [hout]
  · obtain ⟨_, x, _, -, hx, -, -, -, hs⟩ := hr.commit_getElem hc h0
    exact ⟨x, hx, by simp [hs.outs_eq.1]⟩
  · obtain ⟨_, _, _, _, _, x, _, _, -, -, -, hx, -, -, -, hstep, sig, rfl⟩ :=
      hr.reveal_getElem hc ht
    exact ⟨x, hx, by simp [hstep.outs_head]⟩
  · obtain ⟨hlen, hcs⟩ := hr.change_getElem hc ht ho
    have hseg : t + 1 < (segment ctxs c).length := by omega
    have h24 : t + 1 < 24 := by have := length_segment ctxs c; omega
    rw [List.drop_eq_getElem_cons hseg] at hcs
    refine ⟨_, ?_, hcs⟩
    rw [Nat.add_assoc, ← getElem?_segment _ _ h24]
    exact List.getElem?_eq_getElem hseg
  · obtain ⟨hlen, hcs⟩ := hr.change_getElem hc ht ho
    rwa [List.drop_eq_nil_of_le (by omega)] at hcs

/-- **Every output of a successful result pays where the request says.** The contexts are those
of the request's inscriptions, made under the first funding output's key; and every chain pays
only as `PaysTo` says: to the commit script of its first inscription, to the recipients of its
inscriptions, to the commit addresses of the inscriptions after the first, and at most once to
the request's change address. -/
theorem inscribeChain_pays_declared {request : InscriptionRequest}
    (h : (inscribeChain L network rand request).success = true) :
    ∃ tool, newChainInscriptionTool L network rand request = .ok tool ∧
      (∃ primary rest, request.commitTxPrevOutputList = primary :: rest ∧
        List.Forall₂ (fun d x => createInscriptionTxCtxData L network d primary.privateKey = .ok x)
          request.inscriptionDataList tool.inscriptionTxCtxDataList) ∧
      ∀ (c : ℕ) (chain : List (Transaction η)), tool.txChains[c]? = some chain →
        PaysTo L network request tool.inscriptionTxCtxDataList c chain := by
  obtain ⟨tool, -, hn, -⟩ := inscribeChain_eq_of_success h
  obtain ⟨ctxs, chains, feess, hr⟩ := newChainInscriptionTool_eq_ok hn
  refine ⟨tool, hn, by rw [hr.ctxs_eq]; exact hr.contexts, fun c chain hc => ?_⟩
  rw [hr.ctxs_eq]
  exact hr.paysTo hc

/-- Two inscriptions on one Taproot funding output: every output pays where the request says. -/
theorem inscribeChain_pays_declared_at_two :
    (inscribeChain refLib .testnet refDraws (refRequest [refFunding 20000] 2)).success = true ∧
    ∃ tool, newChainInscriptionTool refLib .testnet refDraws (refRequest [refFunding 20000] 2) = .ok tool ∧
      (∃ primary rest, (refRequest [refFunding 20000] 2).commitTxPrevOutputList = primary :: rest ∧
        List.Forall₂ (fun d x => createInscriptionTxCtxData refLib .testnet d primary.privateKey =
          .ok x) (refRequest [refFunding 20000] 2).inscriptionDataList
          tool.inscriptionTxCtxDataList) ∧
      ∀ (c : ℕ) (chain : List (Transaction RefHash)), tool.txChains[c]? = some chain →
        PaysTo refLib .testnet (refRequest [refFunding 20000] 2) tool.inscriptionTxCtxDataList c
          chain :=
  ⟨by decide, inscribeChain_pays_declared (by decide)⟩

end ChainInscription
