import ChainInscription.Tool
import ChainInscription.Signing

/-!
# What a successful run returns

A request that `newChainInscriptionTool` accepts has funding outputs that all carry keys and a
nonempty list of inscriptions. The contexts come from the first funding output's key; the plan
is built on a fresh tool that holds them, and then signed. `ToolRun` records this decomposition,
and every later statement about a successful run starts from it: chain `c` of the tool is chain
`c` of the plan with its inputs signed, so it has the plan's outputs and outpoints.

`inscribeChain` packages the signed chains. On the chains of a run the packager never takes its
early branches, so a result with `success = true` holds the hex and id of every transaction of
every chain, and one `LastTxInfo` per chain.
-/

namespace ChainInscription

variable {η : Type} {L : BitcoinLib η} {network : Network} {rand : RandomDraws}

/-! ## Validation and contexts -/

theorem checkPrivateKeys_eq_ok {us : List PrevOutput} {i : ℕ}
    (h : checkPrivateKeys us i = .ok ()) : ∀ u ∈ us, u.privateKey ≠ "" := by
  induction us generalizing i with
  | nil => simp
  | cons u us ih =>
    unfold checkPrivateKeys at h
    split at h
    · cases h
    · next hu => exact List.forall_mem_cons.2 ⟨hu, ih h⟩

/-- The key check fails at the first funding output without a key, naming its index and its
transaction. -/
theorem checkPrivateKeys_eq_error {us : List PrevOutput} {k i : ℕ} {u : PrevOutput}
    (hu : us[i]? = some u) (hkey : u.privateKey = "")
    (hbefore : ∀ j < i, ∀ v, us[j]? = some v → v.privateKey ≠ "") :
    checkPrivateKeys us k = .error
      s!"输入错误：commitTxPrevOutputList 中索引 {k + i} 的 UTXO (txId: {u.txId}) 缺少私钥 (privateKey)" := by
  induction us generalizing k i with
  | nil => simp at hu
  | cons v rest ih =>
    cases i with
    | zero =>
      simp only [List.getElem?_cons_zero, Option.some.injEq] at hu
      subst hu
      rw [checkPrivateKeys, if_pos hkey, Nat.add_zero]
      rfl
    | succ i =>
      have hv : v.privateKey ≠ "" := hbefore 0 (Nat.succ_pos i) v (by simp)
      rw [checkPrivateKeys, if_neg hv, ih (by simpa using hu) fun j hj w hw =>
        hbefore (j + 1) (by omega) w (by simpa using hw), show k + 1 + i = k + (i + 1) by omega]

/-- A `mapM` in `Except` that succeeded ran its function with success on every element. -/
theorem forall₂_of_mapM_eq_ok {α β ε : Type} {f : α → Except ε β} {as : List α} {bs : List β}
    (h : as.mapM f = .ok bs) : List.Forall₂ (fun a b => f a = .ok b) as bs := by
  induction as generalizing bs with
  | nil =>
    simp only [List.mapM_nil, Except.pure_eq_ok] at h
    subst h
    exact .nil
  | cons a as ih =>
    rw [List.mapM_cons] at h
    obtain ⟨b, hb, h⟩ := Except.bind_eq_ok.1 h
    obtain ⟨bs', hbs, h⟩ := Except.bind_eq_ok.1 h
    simp only [Except.pure_eq_ok] at h
    subst h
    exact .cons hb (ih hbs)

/-- An index with an entry in one of two lists of the same length has one in the other. -/
theorem exists_getElem?_of_length_eq {α β : Type} {l : List α} {l' : List β} {i : ℕ} {a : α}
    (hlen : l.length = l'.length) (h : l[i]? = some a) : ∃ b, l'[i]? = some b :=
  ⟨_, List.getElem?_eq_getElem (hlen ▸ (List.getElem?_eq_some_iff.1 h).1)⟩

/-- The tool `newChainInscriptionTool` plans on: the network and the contexts, nothing else. -/
def startTool (network : Network) (ctxs : List InscriptionTxCtxData) : ChainInscriptionTool η :=
  { ChainInscriptionTool.init with network := network, inscriptionTxCtxDataList := ctxs }

theorem startTool_fresh (network : Network) (ctxs : List InscriptionTxCtxData) :
    (startTool network ctxs : ChainInscriptionTool η).Fresh :=
  ⟨rfl, rfl, rfl, rfl⟩

section Start
variable {ctxs : List InscriptionTxCtxData} {chains : List (List (Transaction η))}
  {feess : List (List ℤ)}

@[simp] theorem planned_startTool_ctxs :
    (planned (startTool network ctxs) 0 chains feess).inscriptionTxCtxDataList = ctxs := rfl

end Start

/-- A transaction that spends exactly one outpoint has one input, and it names that outpoint. -/
theorem ins_head_of_outpoints {tx : Transaction η} {h : η} {i : ℕ}
    (ho : tx.outpoints = [(h, i)]) :
    ∃ input, tx.ins[0]? = some input ∧ input.hash = h ∧ input.index = i := by
  obtain ⟨input, rest, hins, hhead, hrest⟩ := List.map_eq_cons_iff.1 ho
  simp only [Prod.mk.injEq] at hhead
  exact ⟨input, by simp [hins], hhead⟩

/-! ## A run of the tool -/

variable (L network rand) in
/-- How `newChainInscriptionTool` made `tool` from `request` with the draws `rand`: the contexts
`ctxs` are those of the request's inscriptions under the first funding output's key, every
funding output has a key, the plan `chains` with fees `feess` was built on a fresh tool holding
the contexts, and `tool` is that plan recorded, with its chains signed, each reveal against the
outputs of the transaction returned before it. -/
structure ToolRun (request : InscriptionRequest) (ctxs : List InscriptionTxCtxData)
    (chains : List (List (Transaction η))) (feess : List (List ℤ))
    (tool : ChainInscriptionTool η) : Prop where
  contexts : ∃ primary rest, request.commitTxPrevOutputList = primary :: rest ∧
    List.Forall₂ (fun d x => createInscriptionTxCtxData L network d primary.privateKey = .ok x)
      request.inscriptionDataList ctxs
  data_ne : request.inscriptionDataList ≠ []
  keys : ∀ u ∈ request.commitTxPrevOutputList, u.privateKey ≠ ""
  changeAddress_ne : request.changeAddress ≠ ""
  plan : PlanBuilt L network request.commitTxPrevOutputList ctxs request.chainParams rand 0
    chains feess
  tool_eq : tool =
    { planned (startTool network ctxs) 0 chains feess with txChains := tool.txChains }
  signed : SignedPlan L network rand request.commitTxPrevOutputList
    (planned (startTool network ctxs) 0 chains feess) tool.txChains
  reveals : ∀ (c t : ℕ) (chain schain : List (Transaction η)) (tx spred stx : Transaction η),
    chains[c]? = some chain → tool.txChains[c]? = some schain → chain[t + 1]? = some tx →
    schain[t]? = some spred → schain[t + 1]? = some stx →
    SignedReveal L (planned (startTool network ctxs) 0 chains feess) c (t + 1) spred.outs tx
      (rand.signing c (t + 1) 0) stx

/-- **A successful `newChainInscriptionTool` is a run.** -/
theorem newChainInscriptionTool_eq_ok {request : InscriptionRequest}
    {tool : ChainInscriptionTool η} (h : newChainInscriptionTool L network rand request = .ok tool) :
    ∃ ctxs chains feess, ToolRun L network rand request ctxs chains feess tool := by
  unfold newChainInscriptionTool at h
  split at h
  · cases h
  next primary rest hl =>
  split at h
  · cases h
  next hne =>
  obtain ⟨⟨⟩, hk, h⟩ := Except.bind_eq_ok.1 h
  obtain ⟨ctxs, hctxs, h⟩ := Except.bind_eq_ok.1 h
  obtain ⟨plan, hplan, hs⟩ := Except.bind_eq_ok.1 h
  have hkeys := checkPrivateKeys_eq_ok hk
  have hplan' : buildEnhancedInscriptionChains L network rand (startTool network ctxs)
      request.commitTxPrevOutputList request.chainParams = .ok plan := hplan
  obtain ⟨chains, feess, hpb, rfl⟩ :=
    buildEnhancedInscriptionChains_eq_ok rfl (by simp [hl]) hplan'
  have hf₂ := forall₂_of_mapM_eq_ok hctxs
  have hdata : request.inscriptionDataList ≠ [] := by simpa using hne
  have hchange : request.changeAddress ≠ "" :=
    buildEnhancedInscriptionChains_finalChangeAddress_ne (by simp [hl])
      (fun h => hdata (List.eq_nil_of_length_eq_zero
        (hf₂.length_eq.trans (by rw [show ctxs = [] from h]; rfl)))) hplan'
  obtain ⟨signed, rfl, hsp⟩ := signedPlan_of_eq_ok (startTool_fresh network ctxs) hpb hkeys hs
  exact ⟨ctxs, chains, feess, ⟨primary, rest, hl, hf₂⟩, hdata, hkeys, hchange, hpb,
    rfl, hsp, fun _ _ _ _ _ _ _ hc hsc htx hp hst =>
      signedReveal_of_eq_ok (startTool_fresh network ctxs) hpb hkeys hs hc hsc htx hp hst⟩

namespace ToolRun
variable {request : InscriptionRequest} {ctxs : List InscriptionTxCtxData}
  {chains : List (List (Transaction η))} {feess : List (List ℤ)} {tool : ChainInscriptionTool η}

theorem ctxs_eq (hr : ToolRun L network rand request ctxs chains feess tool) :
    tool.inscriptionTxCtxDataList = ctxs := by
  rw [hr.tool_eq]; rfl

theorem ledgerFee_eq (hr : ToolRun L network rand request ctxs chains feess tool) (c t : ℕ) :
    ledgerFee tool c t = ledgerFee (planned (startTool network ctxs) 0 chains feess) c t := by
  rw [hr.tool_eq]; rfl

theorem contextOf_eq (hr : ToolRun L network rand request ctxs chains feess tool) (c t : ℕ) :
    contextOf tool c t = contextOf (planned (startTool network ctxs) 0 chains feess) c t := by
  rw [hr.tool_eq]; rfl

/-- The total of a run is the sum of its ledger. -/
theorem total_eq (hr : ToolRun L network rand request ctxs chains feess tool) :
    tool.totalEstimatedFee = (tool.txFees.map (·.fee)).sum := by
  rw [hr.tool_eq]
  exact (ledgerIndexed_planned (startTool_fresh network ctxs) hr.plan.map_length
    hr.plan.planMappings_eq).total_eq

theorem txChains_length (hr : ToolRun L network rand request ctxs chains feess tool) :
    tool.txChains.length = chains.length := by
  simpa using hr.signed.length_eq

/-- Chain `c` of the tool is chain `c` of the plan signed: the same length, and transaction by
transaction the same outputs, the same outpoints and the same number of inputs. -/
theorem getElem (hr : ToolRun L network rand request ctxs chains feess tool) {c : ℕ}
    {schain : List (Transaction η)} (hc : tool.txChains[c]? = some schain) :
    ∃ chain, chains[c]? = some chain ∧ schain.length = chain.length ∧
      ∀ (j : ℕ) (tx stx : Transaction η), chain[j]? = some tx → schain[j]? = some stx →
        stx.outs = tx.outs ∧ stx.outpoints = tx.outpoints ∧ stx.ins.length = tx.ins.length := by
  obtain ⟨chain, hch⟩ : ∃ chain, chains[c]? = some chain :=
    exists_getElem?_of_length_eq hr.txChains_length hc
  obtain ⟨utxo, -, -, hlen, hcommit, hreveal⟩ :=
    hr.signed.chain_eq c chain schain (by simpa using hch) hc
  refine ⟨chain, hch, hlen, fun j tx stx htx hstx => ?_⟩
  cases j with
  | zero =>
    obtain ⟨_, _, _, _, _, _, _, _, _, _, rfl⟩ :=
      hr.plan.commit_getElem (startTool_fresh network ctxs) hch htx
    exact (signTx_signedAs (hcommit _ stx htx hstx) (by simp)).outs_eq
  | succ t =>
    obtain ⟨x, sig, -, -, rfl⟩ := hreveal t tx stx htx hstx
    simp

/-- The commit of chain `c` of a run, as the tool returns it: the plan's commit on funding
output `c` for inscription `24 c`, charged the fee the ledger records, then signed for the
funding output. -/
theorem commit_getElem (hr : ToolRun L network rand request ctxs chains feess tool) {c : ℕ}
    {schain : List (Transaction η)} {stx : Transaction η} (hc : tool.txChains[c]? = some schain)
    (h0 : schain[0]? = some stx) :
    ∃ utxo x fee, request.commitTxPrevOutputList[c]? = some utxo ∧ ctxs[24 * c]? = some x ∧
      ledgerFee tool c 0 = some fee ∧
      ChargedFee L network request.commitFeeRate true none [utxo] (rand.sizing c)
        (initialCommitTx L utxo x) fee ∧
      0 ≤ (utxo.amount : ℤ) - fee ∧
      SignedAs L network ((initialCommitTx L utxo x).setOutputValue 0 (utxo.amount - fee)) 0 utxo
        stx := by
  obtain ⟨chain, hch, hlen, -⟩ := hr.getElem hc
  obtain ⟨tx, htx⟩ : ∃ tx, chain[0]? = some tx := exists_getElem?_of_length_eq hlen h0
  obtain ⟨utxo, x, fee, hu, hx, hfee, -, hcharged, hpaid, rfl⟩ :=
    hr.plan.commit_getElem (startTool_fresh network ctxs) hch htx
  obtain ⟨utxo', hu', -, -, hcommit, -⟩ :=
    hr.signed.chain_eq c chain schain (by simpa using hch) hc
  rw [hu, Option.some.injEq] at hu'
  subst hu'
  exact ⟨utxo, x, fee, hu, hx, by rw [hr.ledgerFee_eq]; exact hfee, hcharged, hpaid,
    signTx_signedAs (hcommit _ stx htx h0) (by simp)⟩

/-- Reveal `t + 1` of chain `c` of a run, as the tool returns it: one `RevealStep` of the plan
from the plan's transaction `t`, whose outputs the tool's transaction `t` has, for inscription
`24 c + t` with the fee the ledger records, and then signed with a signature in front of the
inscription's witness. -/
theorem reveal_getElem (hr : ToolRun L network rand request ctxs chains feess tool) {c t : ℕ}
    {schain : List (Transaction η)} {stx : Transaction η} (hc : tool.txChains[c]? = some schain)
    (ht : schain[t + 1]? = some stx) :
    ∃ utxo first pred spred w x f tx, request.commitTxPrevOutputList[c]? = some utxo ∧
      schain[t]? = some spred ∧ spred.outs = pred.outs ∧ ctxs[24 * c + t]? = some x ∧
      ledgerFee tool c (t + 1) = some f ∧
      (pred.outs[if t = 0 then 0 else 1]?).map (·.value) = some w ∧
      schain.length = (segment ctxs c).length + 1 ∧
      RevealStep L network utxo first request.chainParams pred (if t = 0 then 0 else 1) w x
        ((segment ctxs c).drop (t + 1)) f tx ∧
      ∃ sig : SchnorrSig, stx = tx.setWitness 0 (sig.bytes :: x.witness) := by
  have hf : (startTool network ctxs : ChainInscriptionTool η).Fresh := startTool_fresh network ctxs
  obtain ⟨chain, hch, hlen, hsame⟩ := hr.getElem hc
  obtain ⟨tx, htx⟩ : ∃ tx, chain[t + 1]? = some tx := exists_getElem?_of_length_eq hlen ht
  obtain ⟨spred, hspred⟩ : ∃ spred, schain[t]? = some spred :=
    ⟨_, List.getElem?_eq_getElem (by have := (List.getElem?_eq_some_iff.1 ht).1; omega)⟩
  obtain ⟨utxo, first, pred, s, w, x, f, hu, hpred, -, hx, hctx, hfee, hout, -, -, hstep⟩ :=
    hr.plan.reveal_getElem hf hch htx
  obtain ⟨_, _, _, hcl, _, hreveal⟩ := hr.signed.chain_eq c chain schain (by simpa using hch) hc
  obtain ⟨x', sig, hctx', -, rfl⟩ := hreveal t tx stx htx ht
  rw [hctx, Option.some.injEq] at hctx'
  subst hctx'
  obtain ⟨_, _, _, -, -, hcb⟩ := hr.plan.getElem hch
  refine ⟨utxo, first, pred, spred, w, x, f, tx, hu, hspred, (hsame t pred spred hpred hspred).1,
    hx, by rw [hr.ledgerFee_eq]; exact hfee, by simp [hout], ?_, hstep, sig, rfl⟩
  rw [hcl, hcb.length_eq.1, Nat.zero_add]

/-- Reveal `t + 1` of chain `c` of a run, as the tool returns it: the plan's reveal signed in
front of the witness of inscription `24 c + t`, which the estimator priced at the size of its
clone, as a spend from the commit address of inscription `24 c`. -/
theorem sized_getElem (hr : ToolRun L network rand request ctxs chains feess tool) {c t : ℕ}
    {schain : List (Transaction η)} {stx : Transaction η} (hc : tool.txChains[c]? = some schain)
    (ht : schain[t + 1]? = some stx) :
    ∃ first x f vsize, ∃ tx : Transaction η, ctxs[24 * c]? = some first ∧
      ctxs[24 * c + t]? = some x ∧ ledgerFee tool c (t + 1) = some f ∧
      L.countAdjustedVsize ((tx.setOutputValue 1 0).setWitness 0 (emptySignature :: x.witness))
        [first.commitTxAddress] network = .ok vsize ∧ f = feeFor vsize request.revealFeeRate ∧
      ∃ sig : SchnorrSig, stx = tx.setWitness 0 (sig.bytes :: x.witness) := by
  have hf : (startTool network ctxs : ChainInscriptionTool η).Fresh := startTool_fresh network ctxs
  obtain ⟨chain, hch, hlen, -⟩ := hr.getElem hc
  obtain ⟨tx, htx⟩ : ∃ tx, chain[t + 1]? = some tx := exists_getElem?_of_length_eq hlen ht
  obtain ⟨first, x, f, vsize, hfirst, hx, hfee, hv, rfl⟩ := hr.plan.reveal_sized hf hch htx
  obtain ⟨_, _, _, _, _, x', _, _, -, -, hx', hctx, -⟩ := hr.plan.reveal_getElem hf hch htx
  obtain ⟨_, _, _, -, -, hreveal⟩ := hr.signed.chain_eq c chain schain (by simpa using hch) hc
  obtain ⟨x'', sig, hctx', -, rfl⟩ := hreveal t tx stx htx ht
  obtain rfl : x' = x := Option.some.inj (hx'.symm.trans hx)
  obtain rfl : x'' = x' := Option.some.inj (hctx'.symm.trans hctx)
  exact ⟨first, x'', _, vsize, tx, hfirst, hx, by rw [hr.ledgerFee_eq]; exact hfee, hv, rfl, sig,
    rfl⟩

/-- What reads only the outputs and outpoints of transactions reads the same on the tool's
chains as on the plan's. -/
theorem map_map_eq (hr : ToolRun L network rand request ctxs chains feess tool) {β : Type}
    (g : Transaction η → β)
    (hg : ∀ tx stx : Transaction η, stx.outs = tx.outs → stx.outpoints = tx.outpoints →
      g stx = g tx) :
    tool.txChains.map (·.map g) = chains.map (·.map g) := by
  refine List.ext_getElem? fun c => ?_
  cases hc : tool.txChains[c]? with
  | none =>
    have : chains[c]? = none := List.getElem?_eq_none (by
      rw [← hr.txChains_length]; exact List.getElem?_eq_none_iff.1 hc)
    simp [hc, this]
  | some schain =>
    obtain ⟨chain, hch, hlen, hsame⟩ := hr.getElem hc
    simp only [List.getElem?_map, hc, hch, Option.map_some', Option.some.injEq]
    refine List.ext_getElem? fun j => ?_
    cases hs : schain[j]? with
    | none =>
      have : chain[j]? = none := List.getElem?_eq_none (by
        rw [← hlen]; exact List.getElem?_eq_none_iff.1 hs)
      simp [hs, this]
    | some stx =>
      obtain ⟨tx, htx⟩ : ∃ tx, chain[j]? = some tx := exists_getElem?_of_length_eq hlen hs
      obtain ⟨ho, hp, -⟩ := hsame j tx stx htx hs
      simp [hs, htx, hg tx stx ho hp]

/-- The tail of a chain of a run: at least a commit and a reveal, and the last transaction
spends an output its predecessor has. -/
theorem last_getElem (hr : ToolRun L network rand request ctxs chains feess tool) {c : ℕ}
    {schain : List (Transaction η)} (hc : tool.txChains[c]? = some schain) :
    ∃ n last prev input o, schain.length = n + 2 ∧ schain[n + 1]? = some last ∧
      schain[n]? = some prev ∧ last.ins[0]? = some input ∧
      prev.outs[input.index]? = some o := by
  obtain ⟨chain, hch, hlen, hsame⟩ := hr.getElem hc
  obtain ⟨_, _, -, -, hlt, hcb⟩ := hr.plan.getElem hch
  have hseg := List.length_pos.2 (length_segment_pos hlt)
  obtain ⟨n, hn⟩ : ∃ n, chain.length = n + 2 :=
    ⟨chain.length - 2, by rw [hcb.length_eq.1]; omega⟩
  obtain ⟨tx, htx⟩ : ∃ tx, chain[n + 1]? = some tx := ⟨_, List.getElem?_eq_getElem (by omega)⟩
  obtain ⟨_, _, pred, s, w, _, _, _, hpred, _, _, _, _, hout, -, -, hstep⟩ :=
    hr.plan.reveal_getElem (startTool_fresh network ctxs) hch htx
  obtain ⟨last, hlast⟩ : ∃ stx, schain[n + 1]? = some stx :=
    ⟨_, List.getElem?_eq_getElem (by omega)⟩
  obtain ⟨prev, hprev⟩ : ∃ stx, schain[n]? = some stx := ⟨_, List.getElem?_eq_getElem (by omega)⟩
  obtain ⟨input, hin, -, hidx⟩ :=
    ins_head_of_outpoints ((hsame (n + 1) tx last htx hlast).2.1.trans hstep.outpoints)
  refine ⟨n, last, prev, input, ⟨s, w⟩, by omega, hlast, hprev, hin, ?_⟩
  rw [(hsame n pred prev hpred hprev).1, hidx]
  exact hout

end ToolRun

/-! ## The packager -/

/-- The packager on a chain of at least two transactions whose last one spends an output its
predecessor has: the chain's hex strings and ids, and the `LastTxInfo` of its last one. -/
theorem packChain_eq {tool : ChainInscriptionTool η} {request : InscriptionRequest} {c n : ℕ}
    {chain : List (Transaction η)} {last prev : Transaction η} {input : Input η} {o : Output}
    (hn : chain.length = n + 2) (hlast : chain[n + 1]? = some last)
    (hprev : chain[n]? = some prev) (hin : last.ins[0]? = some input)
    (ho : prev.outs[input.index]? = some o) :
    packChain L tool request c chain = .ok (chain.map L.txToHex, chain.map L.getId,
      some (lastTxInfo L tool request c (n + 1) last prev input.index o.value)) := by
  obtain ⟨_, rfl⟩ := List.getElem?_eq_some_iff.1 hlast
  obtain ⟨_, rfl⟩ := List.getElem?_eq_some_iff.1 hprev
  obtain ⟨hlt, rfl⟩ := List.getElem?_eq_some_iff.1 ho
  have h1 : chain.length - 1 = n + 1 := by omega
  simp only [packChain, dif_neg (show ¬ chain.length < 2 by omega), List.get_eq_getElem, h1,
    Nat.add_sub_cancel, hin, ge_iff_le, dif_neg (not_le.2 hlt)]
  rfl

/-- The fee a `LastTxInfo` reports is the one the ledger records, `0` when it has none. -/
theorem lastTxInfo_fee (tool : ChainInscriptionTool η) (request : InscriptionRequest)
    (c t : ℕ) (last prev : Transaction η) (i : ℕ) (v : ℤ) :
    (lastTxInfo L tool request c t last prev i v).fee = (ledgerFee tool c t).getD 0 := rfl

/-- The packager's pass from chain `k` on, over chains that each pack into their hex strings,
their ids and a `LastTxInfo`: it keeps the hex strings and ids of every chain, and one record
per chain, in order. -/
theorem packChains_of_forall {tool : ChainInscriptionTool η} {request : InscriptionRequest}
    {chains : List (List (Transaction η))} {k : ℕ}
    (h : ∀ (j : ℕ) (chain : List (Transaction η)), chains[j]? = some chain →
      ∃ info, packChain L tool request (k + j) chain =
        .ok (chain.map L.txToHex, chain.map L.getId, some info)) :
    ∃ packed, packChains L tool request chains k = .ok packed ∧
      packed.map (·.1) = chains.map (·.map L.txToHex) ∧
      packed.map (·.2.1) = chains.map (·.map L.getId) ∧
      (packed.filterMap (·.2.2)).length = chains.length ∧
      ∀ (j : ℕ) (chain : List (Transaction η)), chains[j]? = some chain →
        ∃ info, packChain L tool request (k + j) chain =
          .ok (chain.map L.txToHex, chain.map L.getId, some info) ∧
          (packed.filterMap (·.2.2))[j]? = some info := by
  induction chains generalizing k with
  | nil => exact ⟨[], rfl, rfl, rfl, rfl, fun _ _ h => by simp at h⟩
  | cons chain rest ih =>
    obtain ⟨info, hp⟩ := h 0 chain (by simp)
    rw [Nat.add_zero] at hp
    obtain ⟨packed, hrest, h1, h2, hlen, hinfo⟩ := @ih (k + 1) fun j chain' hc => by
      rw [Nat.add_right_comm]
      exact h (j + 1) chain' (by simpa using hc)
    refine ⟨(chain.map L.txToHex, chain.map L.getId, some info) :: packed,
      by simp [packChains, hp, hrest], by simp [h1], by simp [h2],
      by simp [hlen], fun j chain' hc => ?_⟩
    cases j with
    | zero =>
      simp only [List.getElem?_cons_zero, Option.some.injEq] at hc
      exact ⟨info, hc ▸ by rw [Nat.add_zero]; exact hp, by simp⟩
    | succ j =>
      rw [show k + (j + 1) = k + 1 + j by omega]
      simpa using hinfo j chain' (by simpa using hc)

/-- `inscribeChain` on a request the tool is built for and whose chains the packager packs. -/
theorem inscribeChain_eq_of_ok {request : InscriptionRequest} {tool : ChainInscriptionTool η}
    {packed : List (List String × List String × Option LastTxInfo)}
    (hn : newChainInscriptionTool L network rand request = .ok tool)
    (hp : packChains L tool request tool.txChains 0 = .ok packed) :
    inscribeChain L network rand request = ⟨true, packed.map (·.1), packed.map (·.2.1),
      packed.filterMap (·.2.2), tool.totalEstimatedFee, none⟩ := by
  unfold inscribeChain
  simp only [hn, Except.ok_bind, hp]
  rfl

/-- **A successful result is the packaging of a tool.** `inscribeChain` returned
`success = true` only when `newChainInscriptionTool` built a tool and the packager's pass over
its chains succeeded; the result then holds what the pass returned and the tool's total. -/
theorem inscribeChain_eq_of_success {request : InscriptionRequest}
    (h : (inscribeChain L network rand request).success = true) :
    ∃ tool packed, newChainInscriptionTool L network rand request = .ok tool ∧
      packChains L tool request tool.txChains 0 = .ok packed ∧
      inscribeChain L network rand request = ⟨true, packed.map (·.1), packed.map (·.2.1),
        packed.filterMap (·.2.2), tool.totalEstimatedFee, none⟩ := by
  unfold inscribeChain at h ⊢
  cases hn : newChainInscriptionTool L network rand request with
  | error e => simp only [hn] at h; exact absurd h Bool.false_ne_true
  | ok tool =>
    cases hp : packChains L tool request tool.txChains 0 with
    | error e => simp only [hn, Except.ok_bind, hp] at h; exact absurd h Bool.false_ne_true
    | ok packed => exact ⟨tool, packed, rfl, hp, by simp [hn, hp]⟩

variable (L) in
/-- What `inscribeChain` returns for a tool: success, the hex strings and ids of the tool's
chains, its total, and for each chain the `LastTxInfo` of its last transaction, which spends
output `input.index` of the transaction before it. -/
structure PackedResult (request : InscriptionRequest) (tool : ChainInscriptionTool η)
    (result : ChainInscribeResult) : Prop where
  success : result.success = true
  txChains_eq : result.txChains = tool.txChains.map (·.map L.txToHex)
  txChainTxIds_eq : result.txChainTxIds = tool.txChains.map (·.map L.getId)
  total_eq : result.totalEstimatedFee = tool.totalEstimatedFee
  lastTxDetails_length : result.lastTxDetails.length = tool.txChains.length
  lastTxDetails_getElem : ∀ c schain, tool.txChains[c]? = some schain →
    ∃ n last prev input o, schain.length = n + 2 ∧ schain[n + 1]? = some last ∧
      schain[n]? = some prev ∧ last.ins[0]? = some input ∧ prev.outs[input.index]? = some o ∧
      result.lastTxDetails[c]? =
        some (lastTxInfo L tool request c (n + 1) last prev input.index o.value)

/-- **The result of a run.** When `newChainInscriptionTool` builds a tool, the packager never
fails on its chains and never skips one: `inscribeChain` succeeds with the packaging of every
chain. -/
theorem ToolRun.inscribeChain_eq {request : InscriptionRequest} {ctxs : List InscriptionTxCtxData}
    {chains : List (List (Transaction η))} {feess : List (List ℤ)} {tool : ChainInscriptionTool η}
    (hr : ToolRun L network rand request ctxs chains feess tool)
    (hn : newChainInscriptionTool L network rand request = .ok tool) :
    PackedResult L request tool (inscribeChain L network rand request) := by
  have hall : ∀ (j : ℕ) (schain : List (Transaction η)), tool.txChains[j]? = some schain →
      ∃ info, packChain L tool request (0 + j) schain =
        .ok (schain.map L.txToHex, schain.map L.getId, some info) := fun j schain hc => by
    obtain ⟨n, last, prev, input, o, hn2, hlast, hprev, hin, ho⟩ := hr.last_getElem hc
    exact ⟨_, by rw [Nat.zero_add]; exact packChain_eq hn2 hlast hprev hin ho⟩
  obtain ⟨packed, hp, h1, h2, hlen, hinfo⟩ := packChains_of_forall hall
  rw [inscribeChain_eq_of_ok hn hp]
  refine ⟨rfl, h1, h2, rfl, hlen, fun c schain hc => ?_⟩
  obtain ⟨n, last, prev, input, o, hn2, hlast, hprev, hin, ho⟩ := hr.last_getElem hc
  obtain ⟨info, hpc, hi⟩ := hinfo c schain hc
  rw [Nat.zero_add, packChain_eq hn2 hlast hprev hin ho] at hpc
  simp only [Except.ok.injEq, Prod.mk.injEq, Option.some.injEq, true_and] at hpc
  exact ⟨n, last, prev, input, o, hn2, hlast, hprev, hin, ho, by rw [hi, hpc]⟩

/-- **`inscribeChain` succeeds exactly when the tool does.** The packager never fails on the
chains of a run, so the result reports success exactly when `newChainInscriptionTool` builds a
tool. -/
theorem inscribeChain_success_iff (request : InscriptionRequest) :
    (inscribeChain L network rand request).success = true ↔
      ∃ tool, newChainInscriptionTool L network rand request = .ok tool := by
  refine ⟨fun h => ?_, fun ⟨tool, hn⟩ => ?_⟩
  · obtain ⟨tool, -, hn, -⟩ := inscribeChain_eq_of_success h
    exact ⟨tool, hn⟩
  · obtain ⟨ctxs, chains, feess, hr⟩ := newChainInscriptionTool_eq_ok hn
    exact (hr.inscribeChain_eq hn).success

/-! ## Sample requests on the reference library -/

/-- Two satoshis per virtual byte. -/
def refFeeRate : FeeRate := FeeRate.ofNat 2 (by decide)

/-- A Taproot funding output of `amount` satoshis with the key `w`. -/
def refFunding (amount : ℕ) : PrevOutput := ⟨"aa", 0, amount, "p5", "w"⟩

/-- A nested segwit funding output of `amount` satoshis with the key `w`. -/
def refNestedFunding (amount : ℕ) : PrevOutput := ⟨"aa", 0, amount, "3x", "w"⟩

/-- A request for `n` copies of a short text inscription, funded by `funding`, with change to
the Taproot address `p7` and the default reveal and change values. -/
def refRequest (funding : List PrevOutput) (n : ℕ) : InscriptionRequest :=
  ⟨funding, refFeeRate, refFeeRate, List.replicate n ⟨"text/plain", .text "hi", "prcpt"⟩, 0, "p7",
    none⟩

/-! ## Failures -/

/-- The result `inscribeChain` returns when it fails with `message`: no chains and no fee. -/
def failedResult (message : String) : ChainInscribeResult :=
  ⟨false, [], [], [], 0, some message⟩

/-- A message that ends in a non-empty text is not empty. -/
theorem append_ne_empty_of_right {s t : String} (ht : t ≠ "") : s ++ t ≠ "" := fun h =>
  ht (String.ext (List.append_eq_nil.1 (by simpa using congrArg String.data h)).2)

/-- A request the tool rejects gives the failed result with the tool's message, or the generic
one for an empty message. -/
theorem inscribeChain_eq_failed {request : InscriptionRequest} {message : String}
    (h : newChainInscriptionTool L network rand request = .error message) :
    inscribeChain L network rand request =
      failedResult (if message = "" then "未知错误" else message) := by
  unfold inscribeChain
  simp only [h]
  rfl

/-- **Invalid requests fail with the message of the first check they fail.** With no funding
outputs, with no inscriptions, or with a funding output without a key after outputs that have
one, `inscribeChain` returns no chains and the message that names what is missing: the list,
or the index and the transaction of the funding output. -/
theorem inscribeChain_rejects_invalid (request : InscriptionRequest) :
    (request.commitTxPrevOutputList = [] → inscribeChain L network rand request =
      failedResult "输入错误：commitTxPrevOutputList 不能为空") ∧
    (request.commitTxPrevOutputList ≠ [] → request.inscriptionDataList = [] →
      inscribeChain L network rand request = failedResult "输入错误：inscriptionDataList 不能为空") ∧
    ∀ (i : ℕ) (u : PrevOutput), request.inscriptionDataList ≠ [] →
      request.commitTxPrevOutputList[i]? = some u → u.privateKey = "" →
      (∀ j < i, ∀ v, request.commitTxPrevOutputList[j]? = some v → v.privateKey ≠ "") →
      inscribeChain L network rand request = failedResult
        s!"输入错误：commitTxPrevOutputList 中索引 {i} 的 UTXO (txId: {u.txId}) 缺少私钥 (privateKey)" := by
  refine ⟨fun h => ?_, fun h1 h2 => ?_, fun i u hne hu hkey hbefore => ?_⟩
  · rw [inscribeChain_eq_failed (by unfold newChainInscriptionTool; rw [h]; rfl),
      if_neg (by decide)]
  · obtain ⟨primary, rest, hl⟩ := List.exists_cons_of_ne_nil h1
    rw [inscribeChain_eq_failed (by
      unfold newChainInscriptionTool
      simp only [hl, h2, List.isEmpty_nil, if_true]
      rfl), if_neg (by decide)]
  · have hne' : request.commitTxPrevOutputList ≠ [] := fun h => by simp [h] at hu
    obtain ⟨primary, rest, hl⟩ := List.exists_cons_of_ne_nil hne'
    have hk : checkPrivateKeys (primary :: rest) 0 = _ :=
      hl ▸ checkPrivateKeys_eq_error hu hkey hbefore
    rw [inscribeChain_eq_failed (by
      unfold newChainInscriptionTool
      simp only [hl, hne, List.isEmpty_iff, if_false, hk]
      rfl), if_neg (append_ne_empty_of_right (by decide)), Nat.zero_add]

/-- **An empty change address is always rejected.** The assembler checks the change address of
every reveal before it sizes the reveal, the last one's included, even when that reveal then
drops its change: a request with an empty change address never succeeds. -/
theorem inscribeChain_fails_of_empty_changeAddress {request : InscriptionRequest}
    (h : request.changeAddress = "") : (inscribeChain L network rand request).success = false := by
  cases hs : (inscribeChain L network rand request).success with
  | false => rfl
  | true =>
    obtain ⟨tool, -, hn, -⟩ := inscribeChain_eq_of_success hs
    obtain ⟨ctxs, chains, feess, hr⟩ := newChainInscriptionTool_eq_ok hn
    exact absurd h hr.changeAddress_ne

/-- One inscription on 1200 satoshis, whose reveal would drop its change, and an empty change
address: the request fails in the change address check of its only reveal. -/
theorem inscribeChain_fails_of_empty_changeAddress_at_drop :
    InscriptionRequest.changeAddress
      { refRequest [refFunding 1200] 1 with changeAddress := "" } = "" ∧
    (inscribeChain refLib .testnet refDraws
      { refRequest [refFunding 1200] 1 with changeAddress := "" }).success = false ∧
    (inscribeChain refLib .testnet refDraws
      { refRequest [refFunding 1200] 1 with changeAddress := "" }).error =
      some "链式铭刻内部错误 (链 0, 铭文 0): 无法确定 Reveal 交易的找零地址" :=
  ⟨rfl, inscribeChain_fails_of_empty_changeAddress rfl, by decide⟩

end ChainInscription
