import Mathlib.Tactic.LinearCombination
import ChainInscription.Outcome

/-!
# Fees and sizes

The fees a chain pays against the fees its ledger records, and the sizes those fees were
computed for. A commit pays exactly its recorded fee, and so does every reveal that keeps its
change. A last reveal that drops its change pays at least its recorded fee: the estimator
charged it for the transaction without change, and what is left beyond that goes to the miners
unrecorded. So a chain's funding amount is its recorded fees, its reveal outputs, its final
change and that surplus.

The estimator sized each reveal on a clone with a placeholder signature. The clone has the shape
of the reveal the signer returns, so on a library whose size reads only that shape, the recorded
fee is the fee for the signed reveal's size, and the reveal pays at least the requested rate.
-/

namespace ChainInscription

variable {η : Type} {L : BitcoinLib η} {network : Network} {utxo : PrevOutput}
  {first : InscriptionTxCtxData} {p : ChainParams}

/-! ## The value of a chain -/

/-- The change a chain ends with: the second output of its last transaction, `0` when that
transaction has none. -/
def finalChange (chain : List (Transaction η)) : ℤ :=
  ((chain.getLast?.bind fun tx => tx.outs[1]?).map (·.value)).getD 0

theorem finalChange_cons (tx : Transaction η) {txs : List (Transaction η)} (h : txs ≠ []) :
    finalChange (tx :: txs) = finalChange txs := by
  obtain ⟨y, ys, rfl⟩ := List.exists_cons_of_ne_nil h
  simp [finalChange, List.getLast?_cons_cons]

theorem finalChange_eq_of_map_outs {chain chain' : List (Transaction η)}
    (h : chain.map (·.outs) = chain'.map (·.outs)) : finalChange chain = finalChange chain' := by
  have := congrArg List.getLast? h
  rw [List.getLast?_map, List.getLast?_map] at this
  unfold finalChange
  cases h₁ : chain.getLast? <;> cases h₂ : chain'.getLast? <;> simp_all

theorem getLast?_cons_of_ne_nil (tx : Transaction η) {txs : List (Transaction η)}
    (h : txs ≠ []) : (tx :: txs).getLast? = txs.getLast? := by
  obtain ⟨y, ys, rfl⟩ := List.exists_cons_of_ne_nil h
  exact List.getLast?_cons_cons

/-- **The value of a run of reveals.** The value `v` a nonempty run of reveals starts from is
its fees, `revealOutValue` per reveal, the change it ends with and a surplus, which is `0` unless
the last reveal dropped its change. -/
theorem RevealsBuilt.balance {prev : Transaction η} {v : ℤ} {k : ℕ}
    {xs : List InscriptionTxCtxData} {txs : List (Transaction η)} {fees : List ℤ}
    (h : RevealsBuilt L network utxo first p prev v k xs txs fees) :
    xs ≠ [] → ∃ s, 0 ≤ s ∧ v = fees.sum + p.revealOutValue * xs.length + finalChange txs + s ∧
      (s = 0 ∨ txs.getLast?.map (·.outs.length) = some 1) := by
  induction h with
  | nil => exact fun h => absurd rfl h
  | @keep prev v k x rest cs fee txs fees _ _ _ tail ih =>
    intro _
    rcases rest with _ | ⟨y, rest⟩
    · cases tail
      exact ⟨0, le_rfl, by simp [finalChange]; ring, .inl rfl⟩
    · obtain ⟨s, hs, hv, hdrop⟩ := ih (List.cons_ne_nil y rest)
      have htxs : txs ≠ [] := by
        rw [← List.length_pos, tail.length_eq.1]; exact Nat.succ_pos _
      refine ⟨s, hs, ?_, by rwa [getLast?_cons_of_ne_nil _ htxs]⟩
      rw [finalChange_cons _ htxs, List.sum_cons, List.length_cons]
      push_cast
      linear_combination hv
  | drop _ _ _ _ hpaid =>
    exact fun _ => ⟨_, hpaid, by simp [finalChange]; ring, .inr rfl⟩

/-- **The value of a chain.** The funding amount of a chain is its fees, `revealOutValue` per
reveal, its final change and a surplus, which is `0` unless its last reveal dropped its
change. -/
theorem ChainBuilt.balance {xs : List InscriptionTxCtxData} {chain : List (Transaction η)}
    {fees : List ℤ} {aux : ℕ → Bytes} (h : ChainBuilt L network utxo p aux xs chain fees) :
    ∃ s, 0 ≤ s ∧ (utxo.amount : ℤ) = fees.sum + p.revealOutValue * xs.length +
      finalChange chain + s ∧ (s = 0 ∨ chain.getLast?.map (·.outs.length) = some 1) := by
  cases h with
  | mk _ _ reveals =>
    obtain ⟨s, hs, hv, hdrop⟩ := reveals.balance (List.cons_ne_nil _ _)
    have htxs := List.ne_nil_of_length_pos (by rw [reveals.length_eq.1]; exact Nat.succ_pos _)
    refine ⟨s, hs, ?_, by rwa [getLast?_cons_of_ne_nil _ htxs]⟩
    rw [finalChange_cons _ htxs, List.sum_cons]
    linear_combination hv

/-! ## The ledger of a chain -/

/-- The fees the ledger of `tool` records for chain `c`, in ledger order. -/
def recordedFees (tool : ChainInscriptionTool η) (c : ℕ) : List ℤ :=
  (tool.txFees.filter fun e => e.chainIndex = c).map (·.fee)

theorem filter_feeEntries (c c' t : ℕ) (fs : List ℤ) :
    (feeEntries c t fs).filter (fun e => e.chainIndex = c') =
      if c = c' then feeEntries c t fs else [] := by
  induction fs generalizing t with
  | nil => simp [feeEntries]
  | cons f fs ih =>
    simp only [feeEntries, List.filter_cons, ih]
    by_cases h : c = c' <;> simp [h]

theorem filter_planFees_of_lt {k c : ℕ} (h : c < k) (feess : List (List ℤ)) :
    (planFees k feess).filter (fun e => e.chainIndex = c) = [] := by
  induction feess generalizing k with
  | nil => rfl
  | cons fs feess ih =>
    simp [planFees, List.filter_append, filter_feeEntries, show k ≠ c by omega,
      ih (show c < k + 1 by omega)]

theorem map_fee_filter_planFees {k j : ℕ} {feess : List (List ℤ)} {fees : List ℤ}
    (h : feess[j]? = some fees) :
    ((planFees k feess).filter fun e => e.chainIndex = k + j).map (·.fee) = fees := by
  induction feess generalizing k j with
  | nil => simp at h
  | cons fs feess ih =>
    cases j with
    | zero =>
      simp only [List.getElem?_cons_zero, Option.some.injEq] at h
      subst h
      simp [planFees, List.filter_append, filter_feeEntries,
        filter_planFees_of_lt (show k < k + 1 by omega), map_fee_feeEntries]
    | succ j =>
      simp only [planFees, List.filter_append, filter_feeEntries,
        show k ≠ k + (j + 1) by omega, if_false, List.nil_append]
      rw [show k + (j + 1) = k + 1 + j by omega]
      exact ih (by simpa using h)

namespace ToolRun
variable {request : InscriptionRequest} {ctxs : List InscriptionTxCtxData}
  {chains : List (List (Transaction η))} {feess : List (List ℤ)} {tool : ChainInscriptionTool η}

theorem recordedFees_eq (hr : ToolRun L network rand request ctxs chains feess tool) {c : ℕ}
    {fees : List ℤ} (h : feess[c]? = some fees) : recordedFees tool c = fees := by
  have : ((planFees 0 feess).filter fun e => e.chainIndex = 0 + c).map (·.fee) = fees :=
    map_fee_filter_planFees h
  rw [Nat.zero_add] at this
  rw [hr.tool_eq]
  simpa [recordedFees, planned, startTool, ChainInscriptionTool.recordAll,
    ChainInscriptionTool.init] using this

/-- Chain `c` of the tool and of the plan have the same outputs, transaction by transaction. -/
theorem map_outs_getElem (hr : ToolRun L network rand request ctxs chains feess tool) {c : ℕ}
    {schain chain : List (Transaction η)} (hc : tool.txChains[c]? = some schain)
    (hch : chains[c]? = some chain) : schain.map (·.outs) = chain.map (·.outs) := by
  have := congrArg (·[c]?) (hr.map_map_eq (·.outs) fun _ _ ho _ => ho)
  simpa [hc, hch] using this

end ToolRun

/-! ## Fees paid -/

/-- The fees of chain `c` of `tool`, funded by `u`, against its ledger: the commit pays the fee
recorded for it; reveal `t + 1` spends an output of transaction `t` and pays the fee recorded
for it, or, last in its chain with its change dropped, at least that; and the funding amount is
the recorded fees, `rov` per reveal, the final change and a surplus that only a dropped change
leaves. -/
structure FeesPaid (tool : ChainInscriptionTool η) (rov : ℕ) (c : ℕ) (u : PrevOutput)
    (chain : List (Transaction η)) : Prop where
  commit : ∀ commit, chain[0]? = some commit →
    ledgerFee tool c 0 = some ((u.amount : ℤ) - commit.outValue)
  reveal : ∀ (t : ℕ) (pred tx : Transaction η), chain[t]? = some pred →
    chain[t + 1]? = some tx →
    ∃ input o f, tx.ins[0]? = some input ∧ pred.outs[input.index]? = some o ∧
      ledgerFee tool c (t + 1) = some f ∧
      (o.value - tx.outValue = f ∨
        (t + 2 = chain.length ∧ tx.outs.length = 1 ∧ f ≤ o.value - tx.outValue))
  balance : ∃ surplus, 0 ≤ surplus ∧
    (u.amount : ℤ) = (recordedFees tool c).sum + rov * (chain.length - 1 : ℕ) +
      finalChange chain + surplus ∧
    (surplus = 0 ∨ chain.getLast?.map (·.outs.length) = some 1)

theorem ToolRun.feesPaid {request : InscriptionRequest} {ctxs : List InscriptionTxCtxData}
    {chains : List (List (Transaction η))} {feess : List (List ℤ)} {tool : ChainInscriptionTool η}
    (hr : ToolRun L network rand request ctxs chains feess tool) {c : ℕ}
    {schain : List (Transaction η)} (hc : tool.txChains[c]? = some schain) :
    ∃ u, request.commitTxPrevOutputList[c]? = some u ∧
      FeesPaid tool request.revealOutValueOrDefault c u schain := by
  obtain ⟨chain, hch, hlen, -⟩ := hr.getElem hc
  obtain ⟨u, fees, hu, hfs, -, hcb⟩ := hr.plan.getElem hch
  rw [Nat.zero_add] at hu hcb
  have houts := hr.map_outs_getElem hc hch
  refine ⟨u, hu, fun commit h0 => ?_, fun t pred stx hpred ht => ?_, ?_⟩
  · obtain ⟨u', _, fee, hu', -, hf, -, -, hs⟩ := hr.commit_getElem hc h0
    rw [hu, Option.some.injEq] at hu'
    subst hu'
    simp [hf, Transaction.outValue, hs.outs_eq.1]
  · obtain ⟨_, _, ppred, spred, w, x, f, tx, -, hspred, hso, -, hf, hw, hl, hstep, sig, rfl⟩ :=
      hr.reveal_getElem hc ht
    rw [hpred, Option.some.injEq] at hspred
    subst hspred
    obtain ⟨input, hin, -, hidx⟩ :=
      ins_head_of_outpoints ((Transaction.outpoints_setWitness tx 0 _).trans hstep.outpoints)
    obtain ⟨o, ho, rfl⟩ := Option.map_eq_some'.1 hw
    refine ⟨input, o, f, hin, by rw [hso, hidx]; exact ho, hf, ?_⟩
    have hv : (tx.setWitness 0 (sig.bytes :: x.witness)).outValue = tx.outValue := by
      simp [Transaction.outValue]
    rw [hv]
    rcases hstep.paid with hp | ⟨hrest, h1, hle⟩
    · exact .inl hp
    · have := List.drop_eq_nil_iff.1 hrest
      have := (List.getElem?_eq_some_iff.1 ht).1
      exact .inr ⟨by omega, by simpa using h1, hle⟩
  · obtain ⟨s, hs, hv, hdrop⟩ := hcb.balance
    refine ⟨s, hs, ?_, ?_⟩
    · rw [hr.recordedFees_eq hfs, hlen, hcb.length_eq.1, Nat.add_sub_cancel,
        finalChange_eq_of_map_outs houts]
      exact hv
    · have := congrArg (fun l => l.getLast?.map List.length) houts
      simp only [List.getLast?_map, Option.map_map, Function.comp_def] at this
      rwa [this]

/-- **The fees of a successful result against its ledger.** When `inscribeChain` succeeds, every
chain of the tool `newChainInscriptionTool` built pays its fees as `FeesPaid` says: the commit
and every reveal that keeps its change pay exactly the fee the ledger records for them, a last
reveal that drops its change pays at least that, and the funding amount is the recorded fees,
the reveal outputs, the final change and the surplus a dropped change leaves. The fee each
`LastTxInfo` reports is the ledger's fee for the chain's last transaction, and the total is the
sum of the ledger. -/
theorem inscribeChain_fee_ledger {request : InscriptionRequest}
    (h : (inscribeChain L network rand request).success = true) :
    ∃ tool, newChainInscriptionTool L network rand request = .ok tool ∧
      (∀ c chain, tool.txChains[c]? = some chain → ∃ u,
        request.commitTxPrevOutputList[c]? = some u ∧
        FeesPaid tool request.revealOutValueOrDefault c u chain) ∧
      (∀ c chain info, tool.txChains[c]? = some chain →
        (inscribeChain L network rand request).lastTxDetails[c]? = some info →
        ledgerFee tool c (chain.length - 1) = some info.fee) ∧
      (inscribeChain L network rand request).totalEstimatedFee = (tool.txFees.map (·.fee)).sum := by
  obtain ⟨tool, -, hn, -⟩ := inscribeChain_eq_of_success h
  obtain ⟨ctxs, chains, feess, hr⟩ := newChainInscriptionTool_eq_ok hn
  have hres := hr.inscribeChain_eq hn
  refine ⟨tool, hn, fun c chain hc => hr.feesPaid hc, fun c chain info hc hi => ?_,
    by rw [hres.total_eq, hr.total_eq]⟩
  obtain ⟨n, last, prev, input, o, hlen, hlast, -, -, -, hinfo⟩ :=
    hres.lastTxDetails_getElem c chain hc
  rw [hi, Option.some.injEq] at hinfo
  obtain ⟨_, _, _, _, _, _, f, _, -, -, -, -, hf, -⟩ := hr.reveal_getElem hc hlast
  rw [hlen, show n + 2 - 1 = n + 1 by omega, hinfo, lastTxInfo_fee, hf]
  rfl

/-- One funding output of 1200 satoshis for one inscription, whose reveal drops its change. -/
theorem inscribeChain_fee_ledger_at_drop :
    (inscribeChain refLib .testnet refDraws (refRequest [refFunding 1200] 1)).success = true ∧
    ∃ tool, newChainInscriptionTool refLib .testnet refDraws (refRequest [refFunding 1200] 1) = .ok tool ∧
      (∀ c chain, tool.txChains[c]? = some chain → ∃ u,
        (refRequest [refFunding 1200] 1).commitTxPrevOutputList[c]? = some u ∧
        FeesPaid tool (refRequest [refFunding 1200] 1).revealOutValueOrDefault c u chain) ∧
      (∀ c chain info, tool.txChains[c]? = some chain →
        (inscribeChain refLib .testnet refDraws (refRequest [refFunding 1200] 1)).lastTxDetails[c]? =
          some info →
        ledgerFee tool c (chain.length - 1) = some info.fee) ∧
      (inscribeChain refLib .testnet refDraws (refRequest [refFunding 1200] 1)).totalEstimatedFee =
        (tool.txFees.map (·.fee)).sum :=
  ⟨by decide, inscribeChain_fee_ledger (by decide)⟩

/-- One funding output of 1200 satoshis for one inscription: the reveal drops its change. It
spends the commit's 1042 satoshis and pays out 546, a fee of 496, while the ledger and the
result record 176. -/
theorem inscribeChain_fee_ledger_surplus_at_drop :
    (inscribeChain refLib .testnet refDraws (refRequest [refFunding 1200] 1)).success = true ∧
    (inscribeChain refLib .testnet refDraws (refRequest [refFunding 1200] 1)).lastTxDetails.map
      (fun i => (i.fee, i.inputValue, i.outputs.map (·.value))) = [(176, 1042, [546])] ∧
    ∃ tool, newChainInscriptionTool refLib .testnet refDraws (refRequest [refFunding 1200] 1) = .ok tool ∧
      ledgerFee tool 0 1 = some 176 ∧
      tool.txChains.map (·.map fun tx => (tx.outpoints.map (·.2), tx.outs.map (·.value))) =
        [[([0], [1042]), ([0], [546])]] :=
  ⟨by decide, by decide, _, rfl, rfl, rfl⟩

/-! ## Sizes -/

/-- **The size each reveal was charged for.** When `inscribeChain` succeeds, the estimator
priced each reveal the tool returns on one clone of it: the reveal with its change value back at
`0` and 64 zero bytes in place of its signature, in front of the witness of the inscription it
reveals, sized as a spend from the commit address of the chain's first inscription. The clone
has the signed reveal's shape, so on a library whose size reads only that shape the recorded fee
is `max(Math.ceil(vsize * revealFeeRate), vsize)` for the signed reveal's own size, computed in
double precision, and what the reveal pays, the value it spends less its outputs, is at least
the product `vsize * revealFeeRate` as the code computes it. -/
theorem inscribeChain_reveal_sizes {request : InscriptionRequest}
    (hvsize : ∀ (tx tx' : Transaction η) (addrs : List String), tx.shape = tx'.shape →
      L.countAdjustedVsize tx addrs network = L.countAdjustedVsize tx' addrs network)
    (h : (inscribeChain L network rand request).success = true) :
    ∃ tool, newChainInscriptionTool L network rand request = .ok tool ∧
      ∀ c chain t pred tx, tool.txChains[c]? = some chain → chain[t]? = some pred →
        chain[t + 1]? = some tx →
        ∃ first x vsize f input o, tool.inscriptionTxCtxDataList[24 * c]? = some first ∧
          tool.inscriptionTxCtxDataList[24 * c + t]? = some x ∧ ledgerFee tool c (t + 1) = some f ∧
          L.countAdjustedVsize ((tx.setOutputValue 1 0).setWitness 0 (emptySignature :: x.witness))
            [first.commitTxAddress] network = .ok vsize ∧
          ((tx.setOutputValue 1 0).setWitness 0 (emptySignature :: x.witness)).shape = tx.shape ∧
          L.countAdjustedVsize tx [first.commitTxAddress] network = .ok vsize ∧
          f = feeFor vsize request.revealFeeRate ∧
          tx.ins[0]? = some input ∧ pred.outs[input.index]? = some o ∧
          request.revealFeeRate.mulValue vsize ≤ ((o.value - tx.outValue : ℤ) : ℚ) := by
  obtain ⟨tool, -, hn, -⟩ := inscribeChain_eq_of_success h
  obtain ⟨ctxs, chains, feess, hr⟩ := newChainInscriptionTool_eq_ok hn
  refine ⟨tool, hn, fun c chain t pred stx hc hpred ht => ?_⟩
  obtain ⟨first, x, f, vsize, tx, hfirst, hx, hf, hv, hfee, sig, rfl⟩ := hr.sized_getElem hc ht
  have hclone : ((tx.setWitness 0 (sig.bytes :: x.witness)).setOutputValue 1 0).setWitness 0
      (emptySignature :: x.witness) = (tx.setOutputValue 1 0).setWitness 0
        (emptySignature :: x.witness) := by
    rw [Transaction.setOutputValue_setWitness, Transaction.setWitness_setWitness]
  have hshape := shape_clone_eq tx sig x.witness
  obtain ⟨_, -, hfp⟩ := hr.feesPaid hc
  obtain ⟨input, o, f', hin, ho, hf', hpaid⟩ := hfp.reveal t pred _ hpred ht
  obtain rfl : f' = f := Option.some.inj (hf'.symm.trans hf)
  have hle : f' ≤ o.value - (tx.setWitness 0 (sig.bytes :: x.witness)).outValue :=
    hpaid.elim Eq.ge fun hp => hp.2.2
  rw [hr.ctxs_eq]
  refine ⟨first, x, vsize, f', input, o, hfirst, hx, hf, by rwa [hclone], by rwa [hclone],
    by rw [← hvsize _ _ _ hshape, hv], hfee, hin, ho, ?_⟩
  calc request.revealFeeRate.mulValue vsize
      ≤ (feeFor vsize request.revealFeeRate : ℚ) := FeeRate.mulValue_le_feeFor _ _
    _ ≤ _ := by rw [← hfee]; exact_mod_cast hle

/-- Two inscriptions on one funding output of 20000 satoshis, on the reference library, whose
size reads only a transaction's shape. -/
theorem inscribeChain_reveal_sizes_at_two :
    (inscribeChain refLib .testnet refDraws (refRequest [refFunding 20000] 2)).success = true ∧
    ∃ tool, newChainInscriptionTool refLib .testnet refDraws (refRequest [refFunding 20000] 2) =
      .ok tool ∧
      ∀ c chain t pred tx, tool.txChains[c]? = some chain → chain[t]? = some pred →
        chain[t + 1]? = some tx →
        ∃ first x vsize f input o, tool.inscriptionTxCtxDataList[24 * c]? = some first ∧
          tool.inscriptionTxCtxDataList[24 * c + t]? = some x ∧ ledgerFee tool c (t + 1) = some f ∧
          refLib.countAdjustedVsize ((tx.setOutputValue 1 0).setWitness 0
            (emptySignature :: x.witness)) [first.commitTxAddress] .testnet = .ok vsize ∧
          ((tx.setOutputValue 1 0).setWitness 0 (emptySignature :: x.witness)).shape = tx.shape ∧
          refLib.countAdjustedVsize tx [first.commitTxAddress] .testnet = .ok vsize ∧
          f = feeFor vsize (refRequest [refFunding 20000] 2).revealFeeRate ∧
          tx.ins[0]? = some input ∧ pred.outs[input.index]? = some o ∧
          (refRequest [refFunding 20000] 2).revealFeeRate.mulValue vsize ≤
            ((o.value - tx.outValue : ℤ) : ℚ) :=
  ⟨by decide, inscribeChain_reveal_sizes
    (fun tx tx' addrs h => refLib_countAdjustedVsize_shape tx tx' addrs .testnet h) (by decide)⟩

/-- One inscription of 85 bytes revealed at 1.1 sat/vB from a funding output of 20000 satoshis,
with change to `p7`. -/
def refOnePointOneRequest : InscriptionRequest :=
  { refRequest [refFunding 20000] 1 with
    revealFeeRate := FeeRate.onePointOne
    inscriptionDataList := [⟨"text/plain", .text (String.mk (List.replicate 85 'a')), "prcpt"⟩] }

set_option maxRecDepth 4000 in
/-- At 1.1 sat/vB a reveal of 120 vB is charged, and pays, 132 satoshis: `120 * 1.1` is `132` in
double precision, while the rate, the double nearest `1.1`, is slightly above `11/10`, so the
reveal pays less than its size times the rate. -/
theorem inscribeChain_reveal_underpays_at_one_point_one :
    (inscribeChain refLib .testnet refDraws refOnePointOneRequest).success = true ∧
    ∃ tool, newChainInscriptionTool refLib .testnet refDraws refOnePointOneRequest = .ok tool ∧
      ∃ first pred tx input o, tool.inscriptionTxCtxDataList[0]? = some first ∧
        tool.txChains[0]? = some [pred, tx] ∧
        refLib.countAdjustedVsize tx [first.commitTxAddress] .testnet = .ok 120 ∧
        ledgerFee tool 0 1 = some 132 ∧ tx.ins[0]? = some input ∧
        pred.outs[input.index]? = some o ∧ o.value - tx.outValue = 132 ∧
        (132 : ℚ) < 120 * refOnePointOneRequest.revealFeeRate.toRat :=
  ⟨by decide, _, rfl, _, _, _, _, _, rfl, rfl, rfl, rfl, rfl, rfl, rfl,
    by norm_num [refOnePointOneRequest, FeeRate.onePointOne, FeeRate.toRat]⟩

end ChainInscription
