import ChainInscription.Outcome

/-!
# What each transaction spends

The outpoints the transactions of a successful result spend. A commit spends its chain's funding
output, and a reveal spends an output of the transaction before it, named by that transaction's
hash as the assembler built it, before the signer ran.

Two consequences. No outpoint is spent twice, provided the funding outputs name distinct
outpoints once `base.fromHex` has read their ids, and the hash separates the result's
transactions as they were built, unsigned (`Transaction.unsigned`): the tool never checks the
funding outputs, and two equal ones give two commits spending the same outpoint. Only the
transactions of the one result need to hash apart, which a collision-resistant hash gives. And a
reveal names its predecessor by the hash it had before signing: the signer
writes a script into the funding input of a commit funded from a P2PKH or nested segwit address,
which changes the commit's hash, so the first reveal of such a chain, and the `LastTxInfo` that
describes it, spend an outpoint the result does not hold.
-/

namespace ChainInscription

variable {η : Type} {L : BitcoinLib η} {network : Network} {rand : RandomDraws}

/-! ## Distinct outpoints -/

section Distinct
variable {utxos : List PrevOutput} {p : ChainParams} {chains : List (List (Transaction η))}
  {feess : List (List ℤ)} {tool : ChainInscriptionTool η}

/-- **The outpoints of a plan are distinct.** With funding outputs that name distinct outpoints,
and hashes that separate the plan's transactions and never equal a funding transaction's
reversed id, two transactions of a plan that spend the same outpoints are the same transaction:
by induction on the position in the chain, since a reveal spends its predecessor by hash. -/
theorem PlanBuilt.outpoints_inj (hf : tool.Fresh)
    (h : PlanBuilt L network utxos tool.inscriptionTxCtxDataList p rand 0 chains feess)
    (hfund : (utxos.map fun u => (L.txIdHash u.txId, u.vOut)).Nodup)
    (hhash : ∀ (c c' t t' : ℕ) (chain chain' : List (Transaction η)) (tx tx' : Transaction η),
      chains[c]? = some chain → chains[c']? = some chain' → chain[t]? = some tx →
      chain'[t']? = some tx' → L.getHash tx = L.getHash tx' → tx.outpoints = tx'.outpoints)
    (hne : ∀ u ∈ utxos, ∀ (c t : ℕ) (chain : List (Transaction η)) (tx : Transaction η),
      chains[c]? = some chain → chain[t]? = some tx → L.txIdHash u.txId ≠ L.getHash tx) :
    ∀ (t c c' t' : ℕ) (chain chain' : List (Transaction η)) (tx tx' : Transaction η),
      chains[c]? = some chain → chains[c']? = some chain' → chain[t]? = some tx →
      chain'[t']? = some tx' → tx.outpoints = tx'.outpoints → c = c' ∧ t = t' := by
  intro t
  induction t with
  | zero =>
    intro c c' t' chain chain' tx tx' hc hc' ht ht' heq
    obtain ⟨u, _, _, hu, -, -, -, -, -, rfl⟩ := h.commit_getElem hf hc ht
    cases t' with
    | zero =>
      obtain ⟨u', _, _, hu', -, -, -, -, -, rfl⟩ := h.commit_getElem hf hc' ht'
      simp only [outpoints_initialCommitTx_setOutputValue, List.cons.injEq, and_true] at heq
      refine ⟨List.getElem?_inj (by simpa using (List.getElem?_eq_some_iff.1 hu).1) hfund ?_, rfl⟩
      simp [List.getElem?_map, hu, hu', heq]
    | succ s' =>
      obtain ⟨_, _, pred', _, _, _, _, _, hpred', -, -, -, -, -, -, -, hstep'⟩ :=
        h.reveal_getElem hf hc' ht'
      simp only [outpoints_initialCommitTx_setOutputValue, hstep'.outpoints, List.cons.injEq,
        Prod.mk.injEq, and_true] at heq
      exact absurd heq.1 (hne u (List.getElem?_mem hu) c' s' chain' pred' hc' hpred')
  | succ s ih =>
    intro c c' t' chain chain' tx tx' hc hc' ht ht' heq
    obtain ⟨_, _, pred, _, _, _, _, _, hpred, -, -, -, -, -, -, -, hstep⟩ :=
      h.reveal_getElem hf hc ht
    rw [hstep.outpoints] at heq
    cases t' with
    | zero =>
      obtain ⟨u', _, _, hu', -, -, -, -, -, rfl⟩ := h.commit_getElem hf hc' ht'
      simp only [outpoints_initialCommitTx_setOutputValue, List.cons.injEq, Prod.mk.injEq,
        and_true] at heq
      exact absurd heq.1.symm (hne u' (List.getElem?_mem hu') c s chain pred hc hpred)
    | succ s' =>
      obtain ⟨_, _, pred', _, _, _, _, _, hpred', -, -, -, -, -, -, -, hstep'⟩ :=
        h.reveal_getElem hf hc' ht'
      rw [hstep'.outpoints] at heq
      simp only [List.cons.injEq, Prod.mk.injEq, and_true] at heq
      obtain ⟨rfl, rfl⟩ := ih c c' s' chain chain' pred pred' hc hc' hpred hpred'
        (hhash c c' s s' chain chain' pred pred' hc hc' hpred hpred' heq.1)
      exact ⟨rfl, rfl⟩

end Distinct

/-- Signing an input changes nothing of a transaction but that input's script and witness. -/
theorem SignedAs.unsigned_eq {tx stx : Transaction η} {i : ℕ} {prev : PrevOutput}
    (h : SignedAs L network tx i prev stx) : stx.unsigned = tx.unsigned := by
  cases h <;> simp

namespace ToolRun
variable {request : InscriptionRequest} {ctxs : List InscriptionTxCtxData}
  {chains : List (List (Transaction η))} {feess : List (List ℤ)} {tool : ChainInscriptionTool η}

/-- Transaction `j` of chain `c` of the plan, without its witnesses, is the tool's transaction
`j` of chain `c` unsigned: the plan builds every input with an empty script, and the signer
writes only input scripts and witnesses. So the hash the plan gave a transaction, the one the
reveal after it names, is the hash of the returned transaction unsigned. -/
theorem stripWitness_eq_unsigned (hr : ToolRun L network rand request ctxs chains feess tool)
    {c j : ℕ} {schain chain : List (Transaction η)} {tx stx : Transaction η}
    (hc : tool.txChains[c]? = some schain) (hch : chains[c]? = some chain)
    (htx : chain[j]? = some tx) (hstx : schain[j]? = some stx) :
    tx.stripWitness = stx.unsigned := by
  have hf : (startTool network ctxs : ChainInscriptionTool η).Fresh := startTool_fresh network ctxs
  obtain ⟨_, -, -, -, hcommit, hreveal⟩ := hr.signed.chain_eq c chain schain (by simpa using hch) hc
  cases j with
  | zero =>
    obtain ⟨_, _, _, -, -, -, -, -, -, rfl⟩ := hr.plan.commit_getElem hf hch htx
    rw [(signTx_signedAs (hcommit _ stx htx hstx) (by simp)).unsigned_eq,
      Transaction.unsigned_eq_stripWitness (by simp)]
  | succ t =>
    obtain ⟨_, _, _, _, _, _, _, _, -, -, -, -, -, -, -, -, hstep⟩ :=
      hr.plan.reveal_getElem hf hch htx
    obtain ⟨x, sig, -, -, rfl⟩ := hreveal t tx stx htx hstx
    rw [Transaction.unsigned_setWitness, Transaction.unsigned_eq_stripWitness (by simp [hstep.ins_eq])]

/-- Every transaction of the plan has its signed counterpart in the tool. -/
theorem exists_signed (hr : ToolRun L network rand request ctxs chains feess tool) {c j : ℕ}
    {chain : List (Transaction η)} {tx : Transaction η} (hch : chains[c]? = some chain)
    (htx : chain[j]? = some tx) :
    ∃ schain stx, tool.txChains[c]? = some schain ∧ schain[j]? = some stx ∧
      tx.stripWitness = stx.unsigned := by
  obtain ⟨schain, hc⟩ := exists_getElem?_of_length_eq hr.txChains_length.symm hch
  obtain ⟨chain', hch', hlen, -⟩ := hr.getElem hc
  obtain rfl : chain' = chain := Option.some.inj (hch'.symm.trans hch)
  obtain ⟨stx, hstx⟩ := exists_getElem?_of_length_eq hlen.symm htx
  exact ⟨schain, stx, hc, hstx, hr.stripWitness_eq_unsigned hc hch htx hstx⟩

/-- On a hash that separates the tool's transactions unsigned, two transactions of the plan
with one hash spend the same outpoints. -/
theorem outpoints_eq_of_getHash (hr : ToolRun L network rand request ctxs chains feess tool)
    (hinj : Set.InjOn L.hashTx {t | ∃ chain ∈ tool.txChains, ∃ tx ∈ chain, t = tx.unsigned})
    {c c' t t' : ℕ} {chain chain' : List (Transaction η)} {tx tx' : Transaction η}
    (hch : chains[c]? = some chain) (hch' : chains[c']? = some chain')
    (htx : chain[t]? = some tx) (htx' : chain'[t']? = some tx')
    (heq : L.getHash tx = L.getHash tx') : tx.outpoints = tx'.outpoints := by
  obtain ⟨schain, stx, hc, hstx, hs⟩ := hr.exists_signed hch htx
  obtain ⟨schain', stx', hc', hstx', hs'⟩ := hr.exists_signed hch' htx'
  rw [BitcoinLib.getHash, BitcoinLib.getHash, hs, hs'] at heq
  have hmem : ∀ {c t : ℕ} {schain : List (Transaction η)} {stx : Transaction η},
      tool.txChains[c]? = some schain → schain[t]? = some stx →
      stx.unsigned ∈ {t | ∃ chain ∈ tool.txChains, ∃ tx ∈ chain, t = tx.unsigned} :=
    fun hc ht => ⟨_, List.getElem?_mem hc, _, List.getElem?_mem ht, rfl⟩
  rw [← Transaction.outpoints_stripWitness tx, ← Transaction.outpoints_stripWitness tx', hs, hs',
    hinj (hmem hc hstx) (hmem hc' hstx') heq]

/-- A hash that no returned transaction, unsigned, shares with a funding transaction's id is
shared by no transaction of the plan. -/
theorem txIdHash_ne_getHash (hr : ToolRun L network rand request ctxs chains feess tool)
    (hne : ∀ u ∈ request.commitTxPrevOutputList, ∀ chain ∈ tool.txChains, ∀ tx ∈ chain,
      L.txIdHash u.txId ≠ L.hashTx tx.unsigned) :
    ∀ u ∈ request.commitTxPrevOutputList, ∀ (c t : ℕ) (chain : List (Transaction η))
      (tx : Transaction η), chains[c]? = some chain → chain[t]? = some tx →
      L.txIdHash u.txId ≠ L.getHash tx := by
  intro u hu c t chain tx hch htx
  obtain ⟨schain, stx, hc, hstx, hs⟩ := hr.exists_signed hch htx
  rw [BitcoinLib.getHash, hs]
  exact hne u hu schain (List.getElem?_mem hc) stx (List.getElem?_mem hstx)

/-- Every returned transaction spends one outpoint. -/
theorem outpoints_singleton (hr : ToolRun L network rand request ctxs chains feess tool)
    {c t : ℕ} {schain : List (Transaction η)} {stx : Transaction η}
    (hc : tool.txChains[c]? = some schain) (ht : schain[t]? = some stx) :
    ∃ op, stx.outpoints = [op] := by
  obtain ⟨_, _, -, -, hs⟩ := hr.chainShaped hc
  exact List.length_eq_one.1 (by
    simpa [Transaction.outpoints] using hs.one_input _ (List.mem_iff_getElem?.2 ⟨_, ht⟩))

end ToolRun

/-- **No outpoint is spent twice.** When `inscribeChain` succeeds on funding outputs that name
distinct outpoints, as `base.fromHex` reads their ids, two different transactions of the result
spend no common outpoint, provided the hash separates the result's transactions as they were
built, unsigned, and never equals a funding transaction's reversed id: what a collision-resistant
hash gives on the finitely many transactions of one result. -/
theorem inscribeChain_spends_distinct {request : InscriptionRequest}
    (hfund : (request.commitTxPrevOutputList.map fun u => (L.txIdHash u.txId, u.vOut)).Nodup)
    (h : (inscribeChain L network rand request).success = true) :
    ∃ tool, newChainInscriptionTool L network rand request = .ok tool ∧
      (Set.InjOn L.hashTx {t | ∃ chain ∈ tool.txChains, ∃ tx ∈ chain, t = tx.unsigned} →
      (∀ u ∈ request.commitTxPrevOutputList, ∀ chain ∈ tool.txChains, ∀ tx ∈ chain,
        L.txIdHash u.txId ≠ L.hashTx tx.unsigned) →
      ∀ (c c' t t' : ℕ) (chain chain' : List (Transaction η)) (tx tx' : Transaction η),
        tool.txChains[c]? = some chain → tool.txChains[c']? = some chain' →
        chain[t]? = some tx → chain'[t']? = some tx' → (c, t) ≠ (c', t') →
        tx.outpoints.Disjoint tx'.outpoints) := by
  obtain ⟨tool, -, hn, -⟩ := inscribeChain_eq_of_success h
  obtain ⟨ctxs, chains, feess, hr⟩ := newChainInscriptionTool_eq_ok hn
  refine ⟨tool, hn, fun hinj hne' c c' t t' schain schain' stx stx' hc hc' ht ht' hne o ho ho' =>
    hne ?_⟩
  obtain ⟨op, hop⟩ := hr.outpoints_singleton hc ht
  obtain ⟨op', hop'⟩ := hr.outpoints_singleton hc' ht'
  rw [hop, List.mem_singleton] at ho
  rw [hop', List.mem_singleton] at ho'
  obtain ⟨chain, hch, hlen, hsame⟩ := hr.getElem hc
  obtain ⟨chain', hch', hlen', hsame'⟩ := hr.getElem hc'
  obtain ⟨tx, htx⟩ : ∃ tx, chain[t]? = some tx := exists_getElem?_of_length_eq hlen ht
  obtain ⟨tx', htx'⟩ : ∃ tx, chain'[t']? = some tx := exists_getElem?_of_length_eq hlen' ht'
  have heq : tx.outpoints = tx'.outpoints := by
    rw [← (hsame t tx stx htx ht).2.1, ← (hsame' t' tx' stx' htx' ht').2.1, hop, hop', ← ho,
      ← ho']
  obtain ⟨rfl, rfl⟩ := hr.plan.outpoints_inj (startTool_fresh network ctxs) hfund
    (fun _ _ _ _ _ _ _ _ => hr.outpoints_eq_of_getHash hinj) (hr.txIdHash_ne_getHash hne')
    t c c' t' chain chain' tx tx' hch hch' htx htx' heq
  rfl

/-- Two distinct funding outputs for 25 inscriptions, on the reference library, whose hashes are
constructors: they separate any two transactions and never equal a funding id. -/
theorem inscribeChain_spends_distinct_at_two_chains :
    ((refRequest [refFunding 100000, ⟨"bb", 1, 100000, "p5", "w"⟩] 25).commitTxPrevOutputList.map
      fun u => (refLib.txIdHash u.txId, u.vOut)).Nodup ∧
    (inscribeChain refLib .testnet refDraws
      (refRequest [refFunding 100000, ⟨"bb", 1, 100000, "p5", "w"⟩] 25)).success = true ∧
    ∃ tool, newChainInscriptionTool refLib .testnet refDraws
        (refRequest [refFunding 100000, ⟨"bb", 1, 100000, "p5", "w"⟩] 25) = .ok tool ∧
      Set.InjOn refLib.hashTx {t | ∃ chain ∈ tool.txChains, ∃ tx ∈ chain, t = tx.unsigned} ∧
      (∀ u ∈ (refRequest [refFunding 100000, ⟨"bb", 1, 100000, "p5", "w"⟩] 25).commitTxPrevOutputList,
        ∀ chain ∈ tool.txChains, ∀ tx ∈ chain, refLib.txIdHash u.txId ≠ refLib.hashTx tx.unsigned) ∧
      ∀ (c c' t t' : ℕ) (chain chain' : List (Transaction RefHash)) (tx tx' : Transaction RefHash),
        tool.txChains[c]? = some chain → tool.txChains[c']? = some chain' →
        chain[t]? = some tx → chain'[t']? = some tx' → (c, t) ≠ (c', t') →
        tx.outpoints.Disjoint tx'.outpoints := by
  have hfund : ((refRequest [refFunding 100000, ⟨"bb", 1, 100000, "p5", "w"⟩] 25).commitTxPrevOutputList.map
      fun u => (refLib.txIdHash u.txId, u.vOut)).Nodup := by
    simp [refRequest, refFunding, refLib]
  have hs : (inscribeChain refLib .testnet refDraws
      (refRequest [refFunding 100000, ⟨"bb", 1, 100000, "p5", "w"⟩] 25)).success = true := by decide
  obtain ⟨tool, hn, hdisj⟩ := inscribeChain_spends_distinct hfund hs
  have hinj : Set.InjOn refLib.hashTx {t | ∃ chain ∈ tool.txChains, ∃ tx ∈ chain, t = tx.unsigned} :=
    fun _ _ _ _ h => by cases h; rfl
  have hne : ∀ u ∈ (refRequest [refFunding 100000, ⟨"bb", 1, 100000, "p5", "w"⟩] 25).commitTxPrevOutputList,
      ∀ chain ∈ tool.txChains, ∀ tx ∈ chain, refLib.txIdHash u.txId ≠ refLib.hashTx tx.unsigned :=
    fun _ _ _ _ _ _ h => by cases h
  exact ⟨hfund, hs, tool, hn, hinj, hne, hdisj hinj hne⟩

/-- The same funding output given twice for 25 inscriptions: the request is accepted, and the
commits of both chains spend the outpoint `aa:0`. -/
theorem inscribeChain_spends_twice_at_duplicate :
    (inscribeChain refLib .testnet refDraws (refRequest [refFunding 100000, refFunding 100000] 25)).success =
      true ∧
    ∃ tool, newChainInscriptionTool refLib .testnet refDraws
        (refRequest [refFunding 100000, refFunding 100000] 25) = .ok tool ∧
      (tool.txChains.map fun chain => chain.head?.map fun tx =>
        tx.ins.map fun i => (refLib.hashToId i.hash, i.index)) =
        [some [("aa", 0)], some [("aa", 0)]] :=
  ⟨by decide, _, rfl, rfl⟩

/-! ## Stale outpoints -/

/-- Signing leaves a transaction's hash unchanged, except for a commit whose funding output is a
P2PKH or nested segwit address: the signer writes that input's script. -/
theorem ToolRun.getHash_eq {request : InscriptionRequest} {ctxs : List InscriptionTxCtxData}
    {chains : List (List (Transaction η))} {feess : List (List ℤ)} {tool : ChainInscriptionTool η}
    (hr : ToolRun L network rand request ctxs chains feess tool) {c j : ℕ}
    {schain chain : List (Transaction η)} {tx stx : Transaction η}
    (hc : tool.txChains[c]? = some schain) (hch : chains[c]? = some chain)
    (htx : chain[j]? = some tx) (hstx : schain[j]? = some stx)
    (hwit : j = 0 → ∀ u, request.commitTxPrevOutputList[c]? = some u →
      L.getAddressType u.address network ≠ .legacy ∧
        L.getAddressType u.address network ≠ .segwitNested) :
    L.getHash stx = L.getHash tx := by
  obtain ⟨utxo, hu, -, -, hcommit, hreveal⟩ :=
    hr.signed.chain_eq c chain schain (by simpa using hch) hc
  cases j with
  | zero =>
    obtain ⟨_, _, _, -, -, -, -, -, -, rfl⟩ :=
      hr.plan.commit_getElem (startTool_fresh network ctxs) hch htx
    cases signTx_signedAs (hcommit _ stx htx hstx) (by simp) with
    | witness => simp
    | legacy _ h => exact absurd h (hwit rfl utxo hu).1
    | nested _ _ h => exact absurd h (hwit rfl utxo hu).2
  | succ t =>
    obtain ⟨x, sig, -, -, rfl⟩ := hreveal t tx stx htx hstx
    simp

/-- **Reveals spend the transactions the result returns, on witness funding.** When every funding
output is a native segwit or Taproot address, signing changes no hash, so reveal `t + 1` of every
chain spends output `0` (after the commit) or `1` (after a reveal) of transaction `t` as the
result returns it, under the id the result gives it, and that output exists. -/
theorem inscribeChain_reveals_spend_returned {request : InscriptionRequest}
    (hwit : ∀ u ∈ request.commitTxPrevOutputList,
      L.getAddressType u.address network ≠ .legacy ∧
        L.getAddressType u.address network ≠ .segwitNested)
    (h : (inscribeChain L network rand request).success = true) :
    ∃ tool, newChainInscriptionTool L network rand request = .ok tool ∧
      (inscribeChain L network rand request).txChainTxIds = tool.txChains.map (·.map L.getId) ∧
      ∀ (c : ℕ) (chain : List (Transaction η)) (t : ℕ) (pred tx : Transaction η),
        tool.txChains[c]? = some chain → chain[t]? = some pred → chain[t + 1]? = some tx →
        tx.outpoints = [(L.getHash pred, if t = 0 then 0 else 1)] ∧
        ∃ o, pred.outs[if t = 0 then 0 else 1]? = some o := by
  obtain ⟨tool, -, hn, -⟩ := inscribeChain_eq_of_success h
  obtain ⟨ctxs, chains, feess, hr⟩ := newChainInscriptionTool_eq_ok hn
  refine ⟨tool, hn, (hr.inscribeChain_eq hn).txChainTxIds_eq,
    fun c schain t spred stx hc hspred hstx => ?_⟩
  obtain ⟨chain, hch, hlen, hsame⟩ := hr.getElem hc
  obtain ⟨tx, htx⟩ : ∃ tx, chain[t + 1]? = some tx := exists_getElem?_of_length_eq hlen hstx
  obtain ⟨_, _, pred, s, w, _, _, _, hpred, -, -, -, -, hout, -, -, hstep⟩ :=
    hr.plan.reveal_getElem (startTool_fresh network ctxs) hch htx
  have hhash := hr.getHash_eq hc hch hpred hspred fun _ u hu =>
    hwit u (List.mem_iff_getElem?.2 ⟨c, hu⟩)
  refine ⟨by rw [(hsame _ tx stx htx hstx).2.1, hstep.outpoints, hhash], ⟨s, w⟩, ?_⟩
  rw [(hsame t pred spred hpred hspred).1]
  exact hout

/-- Two inscriptions funded from a Taproot address: each reveal spends its predecessor as
returned. -/
theorem inscribeChain_reveals_spend_returned_at_two :
    (∀ u ∈ (refRequest [refFunding 20000] 2).commitTxPrevOutputList,
      refLib.getAddressType u.address .testnet ≠ .legacy ∧
        refLib.getAddressType u.address .testnet ≠ .segwitNested) ∧
    (inscribeChain refLib .testnet refDraws (refRequest [refFunding 20000] 2)).success = true ∧
    ∃ tool, newChainInscriptionTool refLib .testnet refDraws (refRequest [refFunding 20000] 2) = .ok tool ∧
      (inscribeChain refLib .testnet refDraws (refRequest [refFunding 20000] 2)).txChainTxIds =
        tool.txChains.map (·.map refLib.getId) ∧
      ∀ (c : ℕ) (chain : List (Transaction RefHash)) (t : ℕ) (pred tx : Transaction RefHash),
        tool.txChains[c]? = some chain → chain[t]? = some pred → chain[t + 1]? = some tx →
        tx.outpoints = [(refLib.getHash pred, if t = 0 then 0 else 1)] ∧
        ∃ o, pred.outs[if t = 0 then 0 else 1]? = some o :=
  ⟨by decide, by decide, inscribeChain_reveals_spend_returned (by decide) (by decide)⟩

/-- Signing a commit funded from a nested segwit address writes the redeem script into its input,
which the witness-free serialisation keeps: without witnesses, the signed commit is not the
commit the builder made. -/
theorem SignedAs.unsigned_ne_of_nested {u : PrevOutput} {x : InscriptionTxCtxData} {v : ℤ}
    {stx : Transaction η}
    (hs : SignedAs L network ((initialCommitTx L u x).setOutputValue 0 v) 0 u stx)
    (hnested : L.getAddressType u.address network = .segwitNested) :
    stx.unsigned ≠ stx.stripWitness := by
  intro heq
  cases hs with
  | witness _ _ h' => exact h' hnested
  | legacy _ h' => rw [hnested] at h'; cases h'
  | nested w pub _ =>
    have := congrArg (fun t : Transaction η => t.ins.map (·.script)) heq
    simp [Transaction.unsigned, Transaction.stripWitness, Transaction.setScript,
      Transaction.setWitness] at this

/-- **A nested segwit funding output leaves the first reveal stale.** The first reveal of a chain
whose funding output is a nested segwit address never spends output `0` of the commit the result
returns, as long as the hash does not collide on that commit with and without its input script:
the signer wrote the redeem script into the commit's input after the reveal took the commit's
hash. -/
theorem inscribeChain_first_reveal_stale {request : InscriptionRequest}
    (h : (inscribeChain L network rand request).success = true) :
    ∃ tool, newChainInscriptionTool L network rand request = .ok tool ∧
      ∀ (c : ℕ) (chain : List (Transaction η)) (commit reveal : Transaction η) (u : PrevOutput),
        tool.txChains[c]? = some chain → chain[0]? = some commit → chain[1]? = some reveal →
        request.commitTxPrevOutputList[c]? = some u →
        L.getAddressType u.address network = .segwitNested →
        Set.InjOn L.hashTx {commit.unsigned, commit.stripWitness} →
        reveal.outpoints ≠ [(L.getHash commit, 0)] := by
  obtain ⟨tool, -, hn, -⟩ := inscribeChain_eq_of_success h
  obtain ⟨ctxs, chains, feess, hr⟩ := newChainInscriptionTool_eq_ok hn
  refine ⟨tool, hn, fun c schain scommit sreveal u hc h0 h1 hu hnested hinj heq => ?_⟩
  have hf : (startTool network ctxs : ChainInscriptionTool η).Fresh := startTool_fresh network ctxs
  obtain ⟨chain, hch, hlen, hsame⟩ := hr.getElem hc
  obtain ⟨reveal, hpr⟩ : ∃ tx, chain[0 + 1]? = some tx := exists_getElem?_of_length_eq hlen h1
  obtain ⟨_, _, commit, _, _, _, _, _, hpc, -, -, -, -, -, -, -, hstep⟩ :=
    hr.plan.reveal_getElem hf hch hpr
  obtain ⟨u', x, fee, hu', -, -, -, -, -, rfl⟩ := hr.plan.commit_getElem hf hch hpc
  obtain ⟨utxo, hutxo, -, -, hcommit, -⟩ :=
    hr.signed.chain_eq c chain schain (by simpa using hch) hc
  rw [hu, Option.some.injEq] at hu' hutxo
  subst hu' hutxo
  rw [(hsame 1 reveal sreveal hpr h1).2.1, hstep.outpoints, List.cons.injEq, Prod.mk.injEq,
    BitcoinLib.getHash, BitcoinLib.getHash, hr.stripWitness_eq_unsigned hc hch hpc h0] at heq
  exact (signTx_signedAs (hcommit _ scommit hpc h0) (by simp)).unsigned_ne_of_nested hnested
    (hinj (by simp) (by simp) heq.1.1)

/-- One inscription funded from a nested segwit address: its reveal does not spend the returned
commit. -/
theorem inscribeChain_first_reveal_stale_at_nested :
    (inscribeChain refLib .testnet refDraws (refRequest [refNestedFunding 20000] 1)).success = true ∧
    ∃ tool, newChainInscriptionTool refLib .testnet refDraws (refRequest [refNestedFunding 20000] 1) =
        .ok tool ∧
      ∀ (c : ℕ) (chain : List (Transaction RefHash)) (commit reveal : Transaction RefHash)
        (u : PrevOutput), tool.txChains[c]? = some chain → chain[0]? = some commit →
        chain[1]? = some reveal →
        (refRequest [refNestedFunding 20000] 1).commitTxPrevOutputList[c]? = some u →
        refLib.getAddressType u.address .testnet = .segwitNested →
        Set.InjOn refLib.hashTx {commit.unsigned, commit.stripWitness} →
        reveal.outpoints ≠ [(refLib.getHash commit, 0)] :=
  ⟨by decide, inscribeChain_first_reveal_stale (by decide)⟩

/-- A chain funded from a nested segwit address. Signing writes a script into the commit's input,
which changes the commit's id from `tx[0][19838]` to `tx[5][19838]`; the reveal, built before,
still spends output `0` of `tx[0][19838]`, which the result does not hold. -/
theorem inscribeChain_reveal_outpoint_at_nested :
    (inscribeChain refLib .testnet refDraws (refRequest [refNestedFunding 20000] 1)).success = true ∧
    (inscribeChain refLib .testnet refDraws (refRequest [refNestedFunding 20000] 1)).txChainTxIds =
      [["tx[5][19838]", "tx[0][546, 19094]"]] ∧
    ∃ tool, newChainInscriptionTool refLib .testnet refDraws (refRequest [refNestedFunding 20000] 1) =
        .ok tool ∧
      tool.txChains.map (·.map fun tx => tx.ins.map fun i => (refLib.hashToId i.hash, i.index)) =
        [[[("aa", 0)], [("tx[0][19838]", 0)]]] :=
  ⟨by decide, by decide, _, rfl, rfl⟩

/-- The same chain: its `LastTxInfo` gives `tx[5][19838]`, the signed commit, as the transaction
whose output `0` the last reveal spends, while that reveal's input names `tx[0][19838]`. -/
theorem inscribeChain_lastTxDetails_input_at_nested :
    (inscribeChain refLib .testnet refDraws (refRequest [refNestedFunding 20000] 1)).success = true ∧
    (inscribeChain refLib .testnet refDraws (refRequest [refNestedFunding 20000] 1)).lastTxDetails.map
      (fun i => (i.inputTxId, i.inputVout)) = [("tx[5][19838]", 0)] ∧
    ∃ tool, newChainInscriptionTool refLib .testnet refDraws (refRequest [refNestedFunding 20000] 1) =
        .ok tool ∧
      (tool.txChains.map fun chain => chain.getLast?.map fun tx =>
        tx.ins.map fun i => (refLib.hashToId i.hash, i.index)) = [some [("tx[0][19838]", 0)]] :=
  ⟨by decide, by decide, _, rfl, rfl⟩

end ChainInscription
