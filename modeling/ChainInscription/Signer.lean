import ChainInscription.Planner

/-!
# Signing the chains

`signAllTransactions` signs, chain by chain, the commit with `signTx` for the chain's funding
output and every reveal on the script path of its inscription's leaf: it looks the inscription
up through `chainContextMapping`, checks that the output being spent pays to that inscription's
commit script, and sets the witness to `[signature, inscription script, control block]`, signing
with the untweaked key of the context. A chain whose funding output is missing or has no key is
skipped; every other failure is rethrown with the chain and transaction index in front. Input `i`
of transaction `t` of chain `c` is signed with the draw `rand.signing c t i`.
-/

namespace ChainInscription

variable {η : Type} (L : BitcoinLib η) (network : Network)

/-- The body of the signer's reveal branch, for transaction `txIndex` of chain `chainIndex`
whose predecessor has outputs `prevTxOutputs`; the signature draws `auxRand`. -/
def signReveal (tool : ChainInscriptionTool η) (chainIndex txIndex : ℕ)
    (prevTxOutputs : List Output) (tx : Transaction η) (auxRand : Bytes) :
    Except String (Transaction η) := do
  let inputIndex := 0
  let outputSpentIndex ← match tx.ins[inputIndex]? with
    | some input => pure input.index
    | none => throw "Cannot read properties of undefined (reading 'index')"
  if h : outputSpentIndex ≥ prevTxOutputs.length then
    throw s!"签名错误 (链 {chainIndex}, TX {txIndex}): 尝试花费上一个交易 (TX {txIndex - 1}) 不存在的输出索引 {outputSpentIndex}"
  else
    let prevOut := prevTxOutputs.get ⟨outputSpentIndex, Nat.lt_of_not_le h⟩
    let mapping := tool.chainContextMapping.find? fun m =>
      m.chainIndex = chainIndex ∧ m.txIndex = txIndex
    match mapping.bind (·.contextIndex) with
    | none => throw s!"签名错误 (链 {chainIndex}, TX {txIndex}): 未找到交易的铭文上下文映射信息"
    | some contextIndex =>
      match tool.inscriptionTxCtxDataList[contextIndex]? with
      | none =>
        throw s!"签名错误 (链 {chainIndex}, TX {txIndex}): 根据映射索引 {contextIndex} 未找到铭文上下文数据"
      | some inscriptionCtx =>
        if inscriptionCtx.commitTxAddressPkScript ≠ prevOut.script then
          throw "签名错误：花费脚本与预期上下文不匹配"
        else
          let hash := L.hashForWitnessV1 tx inputIndex [prevOut.script] [prevOut.value]
            sighashDefault (some inscriptionCtx.hash)
          let signature := L.schnorrSign hash inscriptionCtx.privateKey auxRand
          pure (tx.setWitness inputIndex (signature.bytes :: inscriptionCtx.witness))

/-- The signer's `chain.forEach`, from transaction `txIndex` on; `prevTxOutputs` are the
outputs of the transaction signed last. -/
def signChain (rand : RandomDraws) (tool : ChainInscriptionTool η) (chainIndex : ℕ)
    (initialUtxo : PrevOutput) :
    List (Transaction η) → ℕ → List Output → Except String (List (Transaction η))
  | [], _, _ => pure []
  | tx :: rest, txIndex, prevTxOutputs => do
    let tx ← rethrowWith s!"签名错误 (链 {chainIndex}, TX {txIndex}): "
      (if txIndex = 0 then signTx L network tx [initialUtxo] (rand.signing chainIndex txIndex)
       else signReveal L tool chainIndex txIndex prevTxOutputs tx
        (rand.signing chainIndex txIndex 0))
    let rest ← signChain rand tool chainIndex initialUtxo rest (txIndex + 1) tx.outs
    pure (tx :: rest)

/-- The signer's `txChains.forEach`, from chain `chainIndex` on. -/
def signChains (rand : RandomDraws) (tool : ChainInscriptionTool η)
    (commitTxPrevOutputList : List PrevOutput) :
    List (List (Transaction η)) → ℕ → Except String (List (List (Transaction η)))
  | [], _ => pure []
  | chain :: rest, chainIndex => do
    let chain ← match commitTxPrevOutputList[chainIndex]? with
      | none => pure chain
      | some initialUtxo =>
        if initialUtxo.privateKey = "" then pure chain
        else signChain L network rand tool chainIndex initialUtxo chain 0 []
    let rest ← signChains rand tool commitTxPrevOutputList rest (chainIndex + 1)
    pure (chain :: rest)

/-- `signAllTransactions(commitTxPrevOutputList)`. -/
def signAllTransactions (rand : RandomDraws) (tool : ChainInscriptionTool η)
    (commitTxPrevOutputList : List PrevOutput) : Except String (ChainInscriptionTool η) :=
  if tool.txChains.length = 0 then pure tool
  else do
    let txChains ← signChains L network rand tool commitTxPrevOutputList tool.txChains 0
    pure { tool with txChains := txChains }

end ChainInscription
