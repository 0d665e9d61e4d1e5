import ChainInscription.Estimator

/-!
# Assembling one chain

`buildSingleUtxoChain` turns one funding output and the inscriptions assigned to it into a commit
followed by one reveal per inscription. The commit spends the funding output and pays everything
but its fee to the first inscription's commit script. Each reveal spends the change-bearing
output of the transaction before it (output `0` of the commit, output `1` of a reveal), pays
`revealOutValue` to its inscription's recipient and the change to the next inscription's commit
address, or to the final change address after the last inscription. Only the last reveal may
drop its change; every accepted transaction has its fee and context index recorded in the tool.

The source's `for` loop over the inscriptions is `revealLoop`, which walks the list with the
index `i` beside it and carries the loop's `prevTx`, `prevOutputValue`, `prevOutputIndex` and the
chain built so far.
-/

namespace ChainInscription

/-- The request's settings, after defaulting, that every chain is built with. -/
structure ChainParams where
  revealOutValue : ℕ
  revealFeeRate : FeeRate
  finalChangeAddress : String
  minChangeValue : ℕ
  commitFeeRate : FeeRate

variable {η : Type} (L : BitcoinLib η) (network : Network)

/-- The commit before its value is set: version 2, spending the funding outpoint with RBF
enabled, paying to the first inscription's commit script. -/
def initialCommitTx (utxo : PrevOutput) (firstInscriptionCtx : InscriptionTxCtxData) :
    Transaction η :=
  ((Transaction.empty.setVersion defaultTxVersion).addInput (L.txIdHash utxo.txId) utxo.vOut
    defaultSequenceNum).addOutput firstInscriptionCtx.commitTxAddressPkScript 0

/-- A reveal before its change value is set: spending output `prevOutputIndex` of `prevTx`,
paying `revealOutValue` to the inscription's recipient and change to `changePkScript`. -/
def newRevealTx (prevTx : Transaction η) (prevOutputIndex : ℕ)
    (inscriptionCtx : InscriptionTxCtxData) (revealOutValue : ℕ) (changePkScript : Bytes) :
    Transaction η :=
  (((Transaction.empty.setVersion defaultTxVersion).addInput (L.getHash prevTx) prevOutputIndex
    defaultSequenceNum).addOutput inscriptionCtx.revealPkScript revealOutValue).addOutput
    changePkScript 0

/-- The stand-in funding output the estimator is given for a reveal: only its address, the
first inscription's commit address, is read. -/
def revealInput (utxo : PrevOutput) (firstInscriptionCtx : InscriptionTxCtxData)
    (prevOutputValue : ℤ) : PrevOutput :=
  { utxo with amount := prevOutputValue.toNat, address := firstInscriptionCtx.commitTxAddress,
              privateKey := "" }

/-- `currentChangeAddress`: the final change address after the last inscription, the next
inscription's commit address otherwise. -/
def changeAddressFor (finalChangeAddress : String) : List InscriptionTxCtxData → String
  | [] => finalChangeAddress
  | next :: _ => next.commitTxAddress

/-- The reveal loop of `buildSingleUtxoChain`, at inscription `i` of the chain. -/
def revealLoop (utxo : PrevOutput) (firstInscriptionCtx : InscriptionTxCtxData) (p : ChainParams)
    (inscriptionCtxStartIndex chainIndex : ℕ) :
    List InscriptionTxCtxData → ℕ → Transaction η → ℤ → ℕ → List (Transaction η) →
      ChainInscriptionTool η → Except String (List (Transaction η) × ChainInscriptionTool η)
  | [], _, _, _, _, txChain, tool => pure (txChain, tool)
  | inscriptionCtx :: rest, i, prevTx, prevOutputValue, prevOutputIndex, txChain, tool =>
    let isLastReveal := rest.isEmpty
    let currentTxIndex := txChain.length
    let contextIndexForThisReveal := inscriptionCtxStartIndex + i
    let currentChangeAddress := changeAddressFor p.finalChangeAddress rest
    if currentChangeAddress = "" then
      throw s!"链式铭刻内部错误 (链 {chainIndex}, 铭文 {i}): 无法确定 Reveal 交易的找零地址"
    else do
      let changePkScript ← L.toOutputScript currentChangeAddress network
      let revealTx := newRevealTx L prevTx prevOutputIndex inscriptionCtx p.revealOutValue
        changePkScript
      let inputs := [revealInput utxo firstInscriptionCtx prevOutputValue]
      let (revealFee, revealChangeAmount) ← estimateFeeAndOutput L network revealTx inputs
        p.revealFeeRate prevOutputValue p.revealOutValue p.minChangeValue false
        (some inscriptionCtx) noDraws
      match revealChangeAmount with
      | ⊥ =>
        throw s!"链式铭刻错误 (链 {chainIndex}, 铭文 {i}): 交易链中断，余额 ({prevOutputValue} sat) 不足以支付 Reveal 费用 (约 {revealFee} sat) + 铭文输出 ({p.revealOutValue} sat)"
      | (change : ℤ) =>
        if change = -1 then
          if ¬ isLastReveal then
            throw s!"链式铭刻错误 (链 {chainIndex}, 铭文 {i}): 交易链中断，非最后一个 Reveal 交易必须有找零，但余额 ({prevOutputValue} sat) 不足以支付 Reveal 费用 (约 {revealFee} sat) + 铭文输出 ({p.revealOutValue} sat) + 最小找零 ({p.minChangeValue} sat)"
          else do
            let revealTx := revealTx.popOutput
            let (revealFeeNoChange, _) ← estimateFeeAndOutput L network revealTx inputs
              p.revealFeeRate prevOutputValue p.revealOutValue 0 false (some inscriptionCtx)
              noDraws
            let tool := tool.recordTx chainIndex currentTxIndex revealFeeNoChange
              (some contextIndexForThisReveal)
            pure (txChain ++ [revealTx], tool)
        else if change ≥ p.minChangeValue then
          let tool := tool.recordTx chainIndex currentTxIndex revealFee
            (some contextIndexForThisReveal)
          let revealTx := revealTx.setOutputValue 1 change
          revealLoop utxo firstInscriptionCtx p inscriptionCtxStartIndex chainIndex rest (i + 1)
            revealTx change 1 (txChain ++ [revealTx]) tool
        else
          throw s!"链式铭刻内部错误 (链 {chainIndex}, 铭文 {i}): 计算得到的找零金额异常: {change}"

/-- `buildSingleUtxoChain(network, utxo, inscriptions, ..., inscriptionCtxStartIndex,
chainIndex)`, returning the chain and the tool with its fees and context indices recorded; the
commit's dry-run signature draws `auxRand`. -/
def buildSingleUtxoChain (tool : ChainInscriptionTool η) (utxo : PrevOutput)
    (inscriptions : List InscriptionTxCtxData) (p : ChainParams)
    (inscriptionCtxStartIndex chainIndex : ℕ) (auxRand : ℕ → Bytes) :
    Except String (List (Transaction η) × ChainInscriptionTool η) :=
  match inscriptions with
  | [] => pure ([], tool)
  | firstInscriptionCtx :: _ => do
    let commitTx := initialCommitTx L utxo firstInscriptionCtx
    let (initialCommitFee, commitOutputAmount) ← estimateFeeAndOutput L network commitTx [utxo]
      p.commitFeeRate utxo.amount 0 p.minChangeValue true none auxRand
    let shortMsg := s!"链式铭刻错误 (链 {chainIndex}): UTXO {utxo.txId}:{utxo.vOut} ({utxo.amount} sat) 余额不足以支付初始 Commit 交易费用 (约 {initialCommitFee} sat)"
    match commitOutputAmount with
    | ⊥ => throw shortMsg
    | (commitValue : ℤ) =>
      if commitValue < 0 then throw shortMsg
      else
        let tool := tool.recordTx chainIndex 0 initialCommitFee none
        let commitTx := commitTx.setOutputValue 0 commitValue
        revealLoop L network utxo firstInscriptionCtx p inscriptionCtxStartIndex chainIndex
          inscriptions 0 commitTx commitValue 0 [commitTx] tool

/-! ## What the reveal loop builds -/

/-- The `txFees` entries of transactions `t, t + 1, ...` of chain `c`. -/
def feeEntries (c : ℕ) : ℕ → List ℤ → List TxFee
  | _, [] => []
  | t, f :: fs => ⟨c, t, f⟩ :: feeEntries c (t + 1) fs

/-- The `chainContextMapping` entries of `n` reveals of chain `c` from transaction `t` on, whose
inscriptions are those from index `i` on. -/
def revealMappings (c : ℕ) : ℕ → ℕ → ℕ → List ContextMapping
  | _, _, 0 => []
  | t, i, n + 1 => ⟨c, t, some i⟩ :: revealMappings c (t + 1) (i + 1) n

@[simp] theorem newRevealTx_ins (prev : Transaction η) (k : ℕ) (x : InscriptionTxCtxData)
    (v : ℕ) (cs : Bytes) :
    (newRevealTx L prev k x v cs).ins = [⟨L.getHash prev, k, [], defaultSequenceNum, []⟩] := rfl
@[simp] theorem newRevealTx_outs (prev : Transaction η) (k : ℕ) (x : InscriptionTxCtxData)
    (v : ℕ) (cs : Bytes) :
    (newRevealTx L prev k x v cs).outs = [⟨x.revealPkScript, v⟩, ⟨cs, 0⟩] := rfl
theorem newRevealTx_spliceOutput (prev : Transaction η) (k : ℕ) (x : InscriptionTxCtxData)
    (v : ℕ) (cs : Bytes) :
    (newRevealTx L prev k x v cs).spliceOutput 1 = (newRevealTx L prev k x v cs).popOutput := rfl

variable (utxo : PrevOutput) (first : InscriptionTxCtxData) (p : ChainParams)

/-- `RevealsBuilt prev v k xs txs fees`: from a predecessor `prev` whose output `k` holds `v`,
the reveal loop turns the inscriptions `xs` into the reveals `txs`, charging `fees`. Each
reveal keeps a change of at least the minimum and passes it on, or, last in the chain, drops
it when the change would fall short but the reveal without it is affordable. -/
inductive RevealsBuilt : Transaction η → ℤ → ℕ → List InscriptionTxCtxData →
    List (Transaction η) → List ℤ → Prop
  | nil (prev : Transaction η) (v : ℤ) (k : ℕ) : RevealsBuilt prev v k [] [] []
  | keep {prev : Transaction η} {v : ℤ} {k : ℕ} {x : InscriptionTxCtxData}
      {rest : List InscriptionTxCtxData} {cs : Bytes} {fee : ℤ} {txs : List (Transaction η)}
      {fees : List ℤ}
      (hcs : L.toOutputScript (changeAddressFor p.finalChangeAddress rest) network = .ok cs)
      (hfee : ChargedFee L network p.revealFeeRate false (some x) [revealInput utxo first v] noDraws
        (newRevealTx L prev k x p.revealOutValue cs) fee)
      (hmin : (p.minChangeValue : ℤ) ≤ v - p.revealOutValue - fee)
      (tail : RevealsBuilt ((newRevealTx L prev k x p.revealOutValue cs).setOutputValue 1
        (v - p.revealOutValue - fee)) (v - p.revealOutValue - fee) 1 rest txs fees) :
      RevealsBuilt prev v k (x :: rest)
        ((newRevealTx L prev k x p.revealOutValue cs).setOutputValue 1
          (v - p.revealOutValue - fee) :: txs) (fee :: fees)
  | drop {prev : Transaction η} {v : ℤ} {k : ℕ} {x : InscriptionTxCtxData} {cs : Bytes}
      {fee f : ℤ}
      (hcs : L.toOutputScript p.finalChangeAddress network = .ok cs)
      (hfee : ChargedFee L network p.revealFeeRate false (some x) [revealInput utxo first v] noDraws
        (newRevealTx L prev k x p.revealOutValue cs).popOutput fee)
      (hf : ChargedFee L network p.revealFeeRate false (some x) [revealInput utxo first v] noDraws
        (newRevealTx L prev k x p.revealOutValue cs) f)
      (hshort : v - p.revealOutValue - f < p.minChangeValue)
      (hpaid : 0 ≤ v - p.revealOutValue - fee) :
      RevealsBuilt prev v k [x] [(newRevealTx L prev k x p.revealOutValue cs).popOutput] [fee]

variable {L network utxo first p}

/-- A successful reveal loop is a `RevealsBuilt` run, and records one fee and one context
index per reveal. -/
theorem revealLoop_eq_ok {start c : ℕ} {xs : List InscriptionTxCtxData} {i : ℕ}
    {prev : Transaction η} {v : ℤ} {k : ℕ} {txChain : List (Transaction η)}
    {tool : ChainInscriptionTool η} {res : List (Transaction η) × ChainInscriptionTool η}
    (h : revealLoop L network utxo first p start c xs i prev v k txChain tool = .ok res) :
    ∃ txs fees, RevealsBuilt L network utxo first p prev v k xs txs fees ∧
      res = (txChain ++ txs, tool.recordAll (feeEntries c txChain.length fees)
        (revealMappings c txChain.length (start + i) fees.length)) := by
  induction xs generalizing i prev v k txChain tool with
  | nil =>
    simp only [revealLoop, Except.pure_eq_ok] at h
    exact ⟨[], [], .nil _ _ _, by simp [← h, feeEntries, revealMappings]⟩
  | cons x rest ih =>
    simp only [revealLoop] at h
    by_cases hca : changeAddressFor p.finalChangeAddress rest = ""
    · simp [hca] at h
    rw [if_neg hca] at h
    obtain ⟨cs, hcs, h⟩ := Except.bind_eq_ok.1 h
    obtain ⟨⟨fee, change⟩, hest, h⟩ := Except.bind_eq_ok.1 h
    obtain ⟨f, hf, ⟨hcase, rfl, rfl⟩ | ⟨-, -, hM, f', hf', ⟨hI, rfl, rfl⟩ | ⟨-, -, rfl⟩⟩⟩ :=
      estimateFeeAndOutput_eq_ok hest
    · -- the change is kept and passed on
      have hmin : (p.minChangeValue : ℤ) ≤ v - p.revealOutValue - fee := by
        rcases hcase with h' | h' | h'
        · cases h'
        · simp at h'
        · exact h'
      simp only [show v - p.revealOutValue - fee ≠ -1 by omega, if_false, ge_iff_le, hmin,
        if_true] at h
      obtain ⟨txs, fees, hb, rfl⟩ := ih h
      refine ⟨_ :: txs, fee :: fees, .keep hcs hf hmin hb, ?_⟩
      simp [feeEntries, revealMappings, ChainInscriptionTool.recordTx_eq_recordAll, Nat.add_assoc,
        Nat.add_comm 1]
    · -- the change is dropped, which the loop accepts only at the last inscription
      cases rest with
      | cons _ _ => simp at h
      | nil =>
        simp only [if_true, List.isEmpty_nil, not_true_eq_false, if_false] at h
        obtain ⟨⟨fee₂, change₂⟩, hest₂, h⟩ := Except.bind_eq_ok.1 h
        obtain ⟨f₂, hf₂, ⟨-, rfl, rfl⟩ | ⟨-, hlen, -⟩⟩ := estimateFeeAndOutput_eq_ok hest₂
        · rw [newRevealTx_spliceOutput] at hf'
          obtain rfl := hf₂.unique hf'
          simp only [Except.pure_eq_ok] at h
          refine ⟨_, [fee₂], .drop hcs hf₂ hf hM (by omega), ?_⟩
          simp [← h, feeEntries, revealMappings, ChainInscriptionTool.recordTx_eq_recordAll]
        · simp at hlen
    · simp at h

/-- The reveal loop checks every change address it chooses, the final one included, even for
a last reveal that then drops its change: a loop that succeeds on a nonempty list of
inscriptions had a non-empty final change address. -/
theorem revealLoop_finalChangeAddress_ne {start c : ℕ} {xs : List InscriptionTxCtxData} {i : ℕ}
    {prev : Transaction η} {v : ℤ} {k : ℕ} {txChain : List (Transaction η)}
    {tool : ChainInscriptionTool η} {res : List (Transaction η) × ChainInscriptionTool η}
    (hxs : xs ≠ [])
    (h : revealLoop L network utxo first p start c xs i prev v k txChain tool = .ok res) :
    p.finalChangeAddress ≠ "" := by
  induction xs generalizing i prev v k txChain tool with
  | nil => exact absurd rfl hxs
  | cons x rest ih =>
    rw [revealLoop] at h
    by_cases hca : changeAddressFor p.finalChangeAddress rest = ""
    · simp [hca] at h
    obtain _ | ⟨y, rest'⟩ := rest
    · exact hca
    rw [if_neg hca] at h
    obtain ⟨cs, -, h⟩ := Except.bind_eq_ok.1 h
    obtain ⟨⟨fee, change⟩, -, h⟩ := Except.bind_eq_ok.1 h
    split at h
    split at h
    · cases h
    split at h
    · split at h
      · cases h
      · rename_i hlast
        simp at hlast
    split at h
    · exact ih (List.cons_ne_nil y rest') h
    · cases h

theorem RevealsBuilt.length_eq {prev : Transaction η} {v : ℤ} {k : ℕ}
    {xs : List InscriptionTxCtxData} {txs : List (Transaction η)} {fees : List ℤ}
    (h : RevealsBuilt L network utxo first p prev v k xs txs fees) :
    txs.length = xs.length ∧ fees.length = xs.length := by
  induction h with
  | nil => simp
  | keep _ _ _ _ ih => simp [ih.1, ih.2]
  | drop => simp

variable (L network) in
/-- What `buildSingleUtxoChain` makes of a funding output and a nonempty list of inscriptions,
with the fee of every transaction: a commit paying all but its fee to the first inscription's
commit script, then the reveals. -/
inductive ChainBuilt (utxo : PrevOutput) (p : ChainParams) (auxRand : ℕ → Bytes) :
    List InscriptionTxCtxData → List (Transaction η) → List ℤ → Prop
  | mk {first : InscriptionTxCtxData} {rest : List InscriptionTxCtxData} {commitFee : ℤ}
      {txs : List (Transaction η)} {fees : List ℤ}
      (hfee : ChargedFee L network p.commitFeeRate true none [utxo] auxRand
        (initialCommitTx L utxo first) commitFee)
      (hpaid : 0 ≤ (utxo.amount : ℤ) - commitFee)
      (reveals : RevealsBuilt L network utxo first p
        ((initialCommitTx L utxo first).setOutputValue 0 (utxo.amount - commitFee))
        (utxo.amount - commitFee) 0 (first :: rest) txs fees) :
      ChainBuilt utxo p auxRand (first :: rest)
        ((initialCommitTx L utxo first).setOutputValue 0 (utxo.amount - commitFee) :: txs)
        (commitFee :: fees)

/-- A successful `buildSingleUtxoChain` on a nonempty list of inscriptions is a `ChainBuilt`
chain, and records a fee for each of its transactions, no context for the commit and the
inscriptions from `start` on for the reveals. -/
theorem buildSingleUtxoChain_eq_ok {tool : ChainInscriptionTool η} {xs : List InscriptionTxCtxData}
    {start c : ℕ} {aux : ℕ → Bytes} {res : List (Transaction η) × ChainInscriptionTool η}
    (hxs : xs ≠ []) (h : buildSingleUtxoChain L network tool utxo xs p start c aux = .ok res) :
    ∃ chain fees, ChainBuilt L network utxo p aux xs chain fees ∧
      res = (chain, tool.recordAll (feeEntries c 0 fees)
        (⟨c, 0, none⟩ :: revealMappings c 1 start xs.length)) := by
  obtain _ | ⟨x, rest⟩ := xs
  · exact absurd rfl hxs
  simp only [buildSingleUtxoChain] at h
  obtain ⟨⟨fee, change⟩, hest, h⟩ := Except.bind_eq_ok.1 h
  obtain ⟨f, hf, ⟨-, rfl, rfl⟩ | ⟨hc, -⟩⟩ := estimateFeeAndOutput_eq_ok hest
  · by_cases hneg : (utxo.amount : ℤ) < fee
    · simp [hneg] at h
    simp only [sub_zero, sub_neg, hneg, if_false] at h
    obtain ⟨txs, fees, hb, rfl⟩ := revealLoop_eq_ok h
    refine ⟨_, fee :: fees, .mk hf (by omega) hb, ?_⟩
    simp [feeEntries, ChainInscriptionTool.recordTx_eq_recordAll, hb.length_eq.2]
  · cases hc

/-- `buildSingleUtxoChain` on a nonempty list of inscriptions succeeds only with a non-empty final
change address. -/
theorem buildSingleUtxoChain_finalChangeAddress_ne {tool : ChainInscriptionTool η}
    {xs : List InscriptionTxCtxData} {start c : ℕ} {aux : ℕ → Bytes}
    {res : List (Transaction η) × ChainInscriptionTool η} (hxs : xs ≠ [])
    (h : buildSingleUtxoChain L network tool utxo xs p start c aux = .ok res) :
    p.finalChangeAddress ≠ "" := by
  obtain _ | ⟨x, rest⟩ := xs
  · exact absurd rfl hxs
  simp only [buildSingleUtxoChain] at h
  obtain ⟨⟨fee, change⟩, -, h⟩ := Except.bind_eq_ok.1 h
  split at h
  · cases h
  split at h
  · cases h
  · exact revealLoop_finalChangeAddress_ne (List.cons_ne_nil x rest) h

end ChainInscription
