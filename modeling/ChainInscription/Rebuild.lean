import ChainInscription.Outcome

/-!
# Signed reveals, and the record a rebuilder reads

On a successful run every returned reveal carries the signature of its inscription's key over
the output it spends, which pays to that inscription's commit script: the signer checked the
script itself, so this needs no law of the library.

With each chain `inscribeChain` returns a `LastTxInfo`, meant for a module that bumps the fee of
the chain's last reveal. Every field of it is read from the last reveal as returned, from the
transaction before it, or from the context the mapping gives the reveal. On a successful run
these agree with what the signer did: the spent output's index, value and script are those the
reveal's signature covers, and the key and leaf are those the signature was made with. The key
is always that of the first funding output, whichever output funds the chain.

The record's `inputTxId` is the returned id of the transaction before the last one; the reveal's
input names that transaction by its hash before signing, and `Spending` shows the two differ
when a commit funded from a P2PKH or nested segwit address is the one spent.
-/

namespace ChainInscription

variable {η : Type} {L : BitcoinLib η} {network : Network} {rand : RandomDraws}

/-- What `lastTxInfo` reads of the context the mapping gives the last transaction. -/
theorem lastTxInfo_context {tool : ChainInscriptionTool η} {request : InscriptionRequest}
    {c t : ℕ} {x : InscriptionTxCtxData} (hx : contextOf tool c t = some x)
    (last prev : Transaction η) (i : ℕ) (v : ℤ) :
    (lastTxInfo L tool request c t last prev i v).signingPrivateKeyWIF =
        L.private2Wif x.privateKey tool.network ∧
      (lastTxInfo L tool request c t last prev i v).prevInputPkScriptHex =
        L.toHex x.commitTxAddressPkScript ∧
      (lastTxInfo L tool request c t last prev i v).tapScriptTreeHashHex = L.toHex x.hash := by
  show ((contextOf tool c t).map _).getD "" = _ ∧ ((contextOf tool c t).map _).getD "" = _ ∧
    ((contextOf tool c t).map _).getD "" = _
  rw [hx]
  exact ⟨rfl, rfl, rfl⟩

/-- A reveal the builder made has one input with no witness, so setting that witness and
clearing it again gives the reveal back. -/
theorem setWitness_nil_of_ins {tx : Transaction η} {h : η} {k : ℕ} (w : List Bytes)
    (hins : tx.ins = [⟨h, k, [], defaultSequenceNum, []⟩]) :
    (tx.setWitness 0 w).setWitness 0 [] = tx := by
  obtain ⟨v, l, ins, outs⟩ := tx
  cases hins
  rfl

namespace ToolRun
variable {request : InscriptionRequest} {ctxs : List InscriptionTxCtxData}
  {chains : List (List (Transaction η))} {feess : List (List ℤ)} {tool : ChainInscriptionTool η}

theorem network_eq (hr : ToolRun L network rand request ctxs chains feess tool) :
    tool.network = network := by
  rw [hr.tool_eq]
  rfl

/-- Every context of a run is the one `createInscriptionTxCtxData` made for the inscription at
its position, under the first funding output's key. -/
theorem context_getElem (hr : ToolRun L network rand request ctxs chains feess tool) {i : ℕ}
    {x : InscriptionTxCtxData} (hx : ctxs[i]? = some x) :
    ∃ primary d, request.commitTxPrevOutputList.head? = some primary ∧
      request.inscriptionDataList[i]? = some d ∧
      createInscriptionTxCtxData L network d primary.privateKey = .ok x := by
  obtain ⟨primary, rest, hl, hf⟩ := hr.contexts
  obtain ⟨hlen, hR⟩ := List.forall₂_iff_get.1 hf
  obtain ⟨hi, rfl⟩ := List.getElem?_eq_some_iff.1 hx
  exact ⟨primary, _, by simp [hl], List.getElem?_eq_getElem (hlen ▸ hi), hR i _ hi⟩

/-- Every context of a run holds the key decoded from the first funding output's WIF. -/
theorem privateKey_eq (hr : ToolRun L network rand request ctxs chains feess tool) {i : ℕ}
    {x : InscriptionTxCtxData} (hx : ctxs[i]? = some x) :
    ∃ primary hex, request.commitTxPrevOutputList.head? = some primary ∧
      L.privateKeyFromWIF primary.privateKey network = .ok hex ∧ x.privateKey = L.fromHex hex := by
  obtain ⟨primary, d, hp, -, hmk⟩ := hr.context_getElem hx
  obtain ⟨hex, -, hhex, -, hkey, -⟩ := createInscriptionTxCtxData_ok hmk
  exact ⟨primary, hex, hp, hhex, hkey⟩

end ToolRun

variable (L network) in
/-- `info` describes `last`, a chain's last reveal, and `prev`, the transaction before it, as a
rebuilder needs them: the reveal's id, hex and outputs; the output `o` of `prev` it spends, by
index, value and script; and the key and leaf of the context `x` whose signature its input
carries, a signature over the reveal without it and over `o`, drawing `aux`. -/
structure DescribesLast (x : InscriptionTxCtxData) (o : Output) (aux : Bytes)
    (prev last : Transaction η) (info : LastTxInfo) : Prop where
  txId_eq : info.txId = L.getId last
  hex_eq : info.hex = L.txToHex last
  outputs_eq : info.outputs = last.outs.map fun o => (⟨L.toHex o.script, o.value⟩ : OutputInfo)
  inputTxId_eq : info.inputTxId = L.getId prev
  inputVout_eq : last.ins[0]?.map (·.index) = some info.inputVout
  spent_eq : prev.outs[info.inputVout]? = some o
  inputValue_eq : info.inputValue = o.value
  prevInputPkScriptHex_eq : info.prevInputPkScriptHex = L.toHex o.script
  signingPrivateKeyWIF_eq : info.signingPrivateKeyWIF = L.private2Wif x.privateKey network
  tapScriptTreeHashHex_eq : info.tapScriptTreeHashHex = L.toHex x.hash
  revealPkScriptHex_eq : info.revealPkScriptHex = L.toHex x.revealPkScript
  finalChangePkScriptHex_eq :
    info.finalChangePkScriptHex = (last.outs[1]?.map fun o => L.toHex o.script).getD ""
  signed_eq : last = (last.setWitness 0 []).setWitness 0
    ((L.schnorrSign (L.hashForWitnessV1 (last.setWitness 0 []) 0 [o.script] [o.value]
      sighashDefault (some x.hash)) x.privateKey aux).bytes :: x.witness)

/-- Reveal `t + 1` of chain `c` of a run, as returned: its input spends an output `o` of
transaction `t` as returned, which pays to the commit script of context `24 c + t`, and carries
that context's Schnorr signature over the reveal without it and over `o`, drawing
`rand.signing c (t + 1) 0`, in front of the context's witness; its first output pays to the
context's recipient. -/
theorem ToolRun.reveal_signed {request : InscriptionRequest} {ctxs : List InscriptionTxCtxData}
    {chains : List (List (Transaction η))} {feess : List (List ℤ)} {tool : ChainInscriptionTool η}
    (hr : ToolRun L network rand request ctxs chains feess tool) {c t : ℕ}
    {schain : List (Transaction η)} {prev reveal : Transaction η}
    (hc : tool.txChains[c]? = some schain) (hp : schain[t]? = some prev)
    (hrev : schain[t + 1]? = some reveal) :
    ∃ (x : InscriptionTxCtxData) (i : ℕ) (o : Output), ctxs[24 * c + t]? = some x ∧
      contextOf tool c (t + 1) = some x ∧ reveal.ins[0]?.map (·.index) = some i ∧
      prev.outs[i]? = some o ∧ x.commitTxAddressPkScript = o.script ∧
      reveal.outs.head?.map (·.script) = some x.revealPkScript ∧
      reveal = (reveal.setWitness 0 []).setWitness 0
        ((L.schnorrSign (L.hashForWitnessV1 (reveal.setWitness 0 []) 0 [o.script] [o.value]
          sighashDefault (some x.hash)) x.privateKey (rand.signing c (t + 1) 0)).bytes ::
            x.witness) := by
  obtain ⟨chain, hch, hclen, -⟩ := hr.getElem hc
  obtain ⟨tx, htx⟩ : ∃ tx, chain[t + 1]? = some tx := exists_getElem?_of_length_eq hclen hrev
  obtain ⟨_, _, _, _, _, x', _, _, _, -, hx24, hctx, -, -, -, -, hstep⟩ :=
    hr.plan.reveal_getElem (startTool_fresh network ctxs) hch htx
  obtain ⟨input, o, x, hin, ho, hx, hscript, rfl⟩ :=
    hr.reveals c t chain schain tx prev reveal hch hc htx hp hrev
  rw [hctx, Option.some.injEq] at hx
  subst hx
  have hins := hstep.ins_eq
  rw [hins, List.getElem?_cons_zero, Option.some.injEq] at hin
  subst hin
  refine ⟨x', _, o, by simpa using hx24, by rw [hr.contextOf_eq]; exact hctx, ?_, ho, hscript,
    by simp [hstep.outs_head], by rw [setWitness_nil_of_ins _ hins]⟩
  simp only [Transaction.setWitness, hins, List.modify_zero_cons, List.getElem?_cons_zero,
    Option.map_some']

/-- The `LastTxInfo` of every chain of a run describes the chain's last reveal, whose context is
the one made for inscription `24 c + n`. -/
theorem ToolRun.lastTxDetails_describe {request : InscriptionRequest}
    {ctxs : List InscriptionTxCtxData} {chains : List (List (Transaction η))}
    {feess : List (List ℤ)} {tool : ChainInscriptionTool η}
    (hr : ToolRun L network rand request ctxs chains feess tool)
    (hn : newChainInscriptionTool L network rand request = .ok tool) {c : ℕ}
    {schain : List (Transaction η)} (hc : tool.txChains[c]? = some schain) :
    ∃ (n : ℕ) (prev last : Transaction η) (x : InscriptionTxCtxData) (o : Output)
      (info : LastTxInfo), schain.length = n + 2 ∧ schain[n]? = some prev ∧
      schain[n + 1]? = some last ∧
      (inscribeChain L network rand request).lastTxDetails[c]? = some info ∧
      ctxs[24 * c + n]? = some x ∧
      DescribesLast L network x o (rand.signing c (n + 1) 0) prev last info := by
  obtain ⟨n, last, prev, input, o, hlen, hlast, hprev, hin, ho, hinfo⟩ :=
    (hr.inscribeChain_eq hn).lastTxDetails_getElem c schain hc
  obtain ⟨x, i, o', hx24, hxt, hi, ho', hscript, hhead, hsigned⟩ :=
    hr.reveal_signed hc hprev hlast
  rw [hin, Option.map_some', Option.some.injEq] at hi
  subst hi
  rw [ho, Option.some.injEq] at ho'
  subst ho'
  obtain ⟨hwif, hpk, hleaf⟩ := lastTxInfo_context hxt last prev input.index o.value
  refine ⟨n, prev, last, x, o, _, hlen, hprev, hlast, hinfo, hx24,
    ⟨rfl, rfl, rfl, rfl, by rw [hin]; rfl, ho, rfl, by rw [hpk, hscript],
      by rw [hwif, hr.network_eq], hleaf, ?_, ?_, hsigned⟩⟩
  · obtain ⟨r, hr0, hrs⟩ := Option.map_eq_some'.1 hhead
    show (((last.outs.map _)[0]?).map _).getD "" = _
    rw [List.getElem?_map, ← List.head?_eq_getElem?, hr0, ← hrs]
    rfl
  · show (((last.outs.map _)[1]?).map _).getD "" = _
    simp [Option.map_map, Function.comp_def]

/-- **Every returned reveal is signed for its inscription.** On a successful result, reveal
`t + 1` of chain `c` pays first to the recipient of inscription `24 c + t`. The output index its
input names selects an output of the transaction returned before it, and that output pays to the
inscription's commit script. The input carries the Schnorr signature of the inscription's key,
over the reveal and that output's script and value, drawing `rand.signing c (t + 1) 0`, in front
of the inscription's script-path witness. The inscription's context is the one made under the
first funding output's key. No law of the library is needed: the signer compared the spent
script with the context's itself. -/
theorem inscribeChain_reveals_signed {request : InscriptionRequest}
    (h : (inscribeChain L network rand request).success = true) :
    ∃ tool, newChainInscriptionTool L network rand request = .ok tool ∧
      ∀ (c t : ℕ) (schain : List (Transaction η)) (prev reveal : Transaction η),
        tool.txChains[c]? = some schain → schain[t]? = some prev → schain[t + 1]? = some reveal →
        ∃ (primary : PrevOutput) (d : InscriptionData) (x : InscriptionTxCtxData) (i : ℕ)
          (o : Output), request.commitTxPrevOutputList.head? = some primary ∧
          request.inscriptionDataList[24 * c + t]? = some d ∧
          createInscriptionTxCtxData L network d primary.privateKey = .ok x ∧
          reveal.outs.head?.map (·.script) = some x.revealPkScript ∧
          reveal.ins[0]?.map (·.index) = some i ∧ prev.outs[i]? = some o ∧
          o.script = x.commitTxAddressPkScript ∧
          reveal = (reveal.setWitness 0 []).setWitness 0
            ((L.schnorrSign (L.hashForWitnessV1 (reveal.setWitness 0 []) 0 [o.script] [o.value]
              sighashDefault (some x.hash)) x.privateKey (rand.signing c (t + 1) 0)).bytes ::
                x.witness) := by
  obtain ⟨tool, -, hn, -⟩ := inscribeChain_eq_of_success h
  obtain ⟨ctxs, chains, feess, hr⟩ := newChainInscriptionTool_eq_ok hn
  refine ⟨tool, hn, fun c t schain prev reveal hc hp hrev => ?_⟩
  obtain ⟨x, i, o, hx, -, hi, ho, hscript, hhead, hsigned⟩ := hr.reveal_signed hc hp hrev
  obtain ⟨primary, d, hprim, hd, hmk⟩ := hr.context_getElem hx
  exact ⟨primary, d, x, i, o, hprim, hd, hmk, hhead, hi, ho, hscript.symm, hsigned⟩

/-- Two inscriptions on one Taproot funding output: both reveals are signed for their
inscriptions. -/
theorem inscribeChain_reveals_signed_at_two :
    (inscribeChain refLib .testnet refDraws (refRequest [refFunding 20000] 2)).success = true ∧
    ∃ tool, newChainInscriptionTool refLib .testnet refDraws (refRequest [refFunding 20000] 2) = .ok tool ∧
      ∀ (c t : ℕ) (schain : List (Transaction RefHash)) (prev reveal : Transaction RefHash),
        tool.txChains[c]? = some schain → schain[t]? = some prev → schain[t + 1]? = some reveal →
        ∃ (primary : PrevOutput) (d : InscriptionData) (x : InscriptionTxCtxData) (i : ℕ)
          (o : Output), (refRequest [refFunding 20000] 2).commitTxPrevOutputList.head? =
            some primary ∧
          (refRequest [refFunding 20000] 2).inscriptionDataList[24 * c + t]? = some d ∧
          createInscriptionTxCtxData refLib .testnet d primary.privateKey = .ok x ∧
          reveal.outs.head?.map (·.script) = some x.revealPkScript ∧
          reveal.ins[0]?.map (·.index) = some i ∧ prev.outs[i]? = some o ∧
          o.script = x.commitTxAddressPkScript ∧
          reveal = (reveal.setWitness 0 []).setWitness 0
            ((refLib.schnorrSign (refLib.hashForWitnessV1 (reveal.setWitness 0 []) 0 [o.script]
              [o.value] sighashDefault (some x.hash)) x.privateKey
                (refDraws.signing c (t + 1) 0)).bytes :: x.witness) :=
  ⟨by decide, inscribeChain_reveals_signed (by decide)⟩

/-- **The `LastTxInfo` of every chain describes its last reveal.** A successful result holds one
record per chain, and the record of chain `c`, whose length is `n + 2`, describes its last
reveal as `DescribesLast` says, for the context `createInscriptionTxCtxData` made for
inscription `24 c + n` under the first funding output's key. -/
theorem inscribeChain_lastTxDetails_describe {request : InscriptionRequest}
    (h : (inscribeChain L network rand request).success = true) :
    ∃ tool, newChainInscriptionTool L network rand request = .ok tool ∧
      (inscribeChain L network rand request).lastTxDetails.length = tool.txChains.length ∧
      ∀ (c : ℕ) (schain : List (Transaction η)), tool.txChains[c]? = some schain →
        ∃ (n : ℕ) (prev last : Transaction η) (x : InscriptionTxCtxData) (o : Output)
          (info : LastTxInfo) (primary : PrevOutput) (d : InscriptionData),
          schain.length = n + 2 ∧ schain[n]? = some prev ∧ schain[n + 1]? = some last ∧
          (inscribeChain L network rand request).lastTxDetails[c]? = some info ∧
          request.commitTxPrevOutputList.head? = some primary ∧
          request.inscriptionDataList[24 * c + n]? = some d ∧
          createInscriptionTxCtxData L network d primary.privateKey = .ok x ∧
          DescribesLast L network x o (rand.signing c (n + 1) 0) prev last info := by
  obtain ⟨tool, -, hn, -⟩ := inscribeChain_eq_of_success h
  obtain ⟨ctxs, chains, feess, hr⟩ := newChainInscriptionTool_eq_ok hn
  refine ⟨tool, hn, (hr.inscribeChain_eq hn).lastTxDetails_length, fun c schain hc => ?_⟩
  obtain ⟨n, prev, last, x, o, info, hlen, hprev, hlast, hinfo, hx, hd⟩ :=
    hr.lastTxDetails_describe hn hc
  obtain ⟨primary, d, hp, hdi, hmk⟩ := hr.context_getElem hx
  exact ⟨n, prev, last, x, o, info, primary, d, hlen, hprev, hlast, hinfo, hp, hdi, hmk, hd⟩

/-- Two inscriptions on one Taproot funding output: the record describes the chain's last
reveal. -/
theorem inscribeChain_lastTxDetails_describe_at_two :
    (inscribeChain refLib .testnet refDraws (refRequest [refFunding 20000] 2)).success = true ∧
    ∃ tool, newChainInscriptionTool refLib .testnet refDraws (refRequest [refFunding 20000] 2) = .ok tool ∧
      (inscribeChain refLib .testnet refDraws (refRequest [refFunding 20000] 2)).lastTxDetails.length =
        tool.txChains.length ∧
      ∀ (c : ℕ) (schain : List (Transaction RefHash)), tool.txChains[c]? = some schain →
        ∃ (n : ℕ) (prev last : Transaction RefHash) (x : InscriptionTxCtxData) (o : Output)
          (info : LastTxInfo) (primary : PrevOutput) (d : InscriptionData),
          schain.length = n + 2 ∧ schain[n]? = some prev ∧ schain[n + 1]? = some last ∧
          (inscribeChain refLib .testnet refDraws (refRequest [refFunding 20000] 2)).lastTxDetails[c]? =
            some info ∧
          (refRequest [refFunding 20000] 2).commitTxPrevOutputList.head? = some primary ∧
          (refRequest [refFunding 20000] 2).inscriptionDataList[24 * c + n]? = some d ∧
          createInscriptionTxCtxData refLib .testnet d primary.privateKey = .ok x ∧
          DescribesLast refLib .testnet x o (refDraws.signing c (n + 1) 0) prev last info :=
  ⟨by decide, inscribeChain_lastTxDetails_describe (by decide)⟩

/-- **Every record carries the first funding output's key.** The contexts are all made under
the first funding output's key, whichever output funds a chain, so every `LastTxInfo` gives the
library's WIF encoding of the key decoded from that output's WIF: the WIF itself exactly when
the library's encoding turns the decoded key back into it. -/
theorem inscribeChain_signing_key_first {request : InscriptionRequest}
    (h : (inscribeChain L network rand request).success = true) :
    ∃ primary hex, request.commitTxPrevOutputList.head? = some primary ∧
      L.privateKeyFromWIF primary.privateKey network = .ok hex ∧
      ∀ (c : ℕ) (info : LastTxInfo),
        (inscribeChain L network rand request).lastTxDetails[c]? = some info →
        info.signingPrivateKeyWIF = L.private2Wif (L.fromHex hex) network := by
  obtain ⟨tool, -, hn, -⟩ := inscribeChain_eq_of_success h
  obtain ⟨ctxs, chains, feess, hr⟩ := newChainInscriptionTool_eq_ok hn
  obtain ⟨x0, hx0⟩ : ∃ x, ctxs[0]? = some x :=
    ⟨_, List.getElem?_eq_getElem (by rw [hr.length_ctxs]; exact List.length_pos.2 hr.data_ne)⟩
  obtain ⟨primary, hex, hp, hhex, -⟩ := hr.privateKey_eq hx0
  refine ⟨primary, hex, hp, hhex, fun c info hinfo => ?_⟩
  obtain ⟨schain, hc⟩ :=
    exists_getElem?_of_length_eq (hr.inscribeChain_eq hn).lastTxDetails_length hinfo
  obtain ⟨n, prev, last, x, o, info', -, -, -, hinfo', hx, hd⟩ := hr.lastTxDetails_describe hn hc
  obtain ⟨primary', hex', hp', hhex', hkey⟩ := hr.privateKey_eq hx
  rw [hp, Option.some.injEq] at hp'
  subst hp'
  rw [hhex, Except.ok.injEq] at hhex'
  rw [hinfo, Option.some.injEq] at hinfo'
  rw [hinfo', hd.signingPrivateKeyWIF_eq, hkey, hhex']

/-- Two chains funded by outputs with different keys: both records carry the first output's
key. -/
theorem inscribeChain_signing_key_first_at_two_chains :
    (inscribeChain refLib .testnet refDraws
      (refRequest [refFunding 100000, ⟨"bb", 1, 100000, "p5", "v"⟩] 25)).success = true ∧
    ∃ primary hex,
      (refRequest [refFunding 100000, ⟨"bb", 1, 100000, "p5", "v"⟩]
        25).commitTxPrevOutputList.head? = some primary ∧
      refLib.privateKeyFromWIF primary.privateKey .testnet = .ok hex ∧
      ∀ (c : ℕ) (info : LastTxInfo), (inscribeChain refLib .testnet refDraws
        (refRequest [refFunding 100000, ⟨"bb", 1, 100000, "p5", "v"⟩] 25)).lastTxDetails[c]? =
          some info →
        info.signingPrivateKeyWIF = refLib.private2Wif (refLib.fromHex hex) .testnet :=
  ⟨by decide, inscribeChain_signing_key_first (by decide)⟩

end ChainInscription
