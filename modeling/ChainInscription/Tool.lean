import ChainInscription.Signer
import ChainInscription.Envelope

/-!
# The tool and its result

`newChainInscriptionTool` validates a request, builds one inscription context per payload from
the first funding output's key, plans and assembles the chains and signs them. `inscribeChain`
runs it and packages the signed chains: the hex and id of every transaction, and for each chain
a `LastTxInfo` record about its last transaction for a replace-by-fee rebuilder. Any failure,
in the tool or in the packager, becomes a result with `success = false`, the message, and empty
collections.
-/

namespace ChainInscription

variable {η : Type} (L : BitcoinLib η) (network : Network)

/-- The validation `forEach`: the first funding output without a key fails. -/
def checkPrivateKeys : List PrevOutput → ℕ → Except String Unit
  | [], _ => pure ()
  | utxo :: rest, index =>
    if utxo.privateKey = "" then
      throw s!"输入错误：commitTxPrevOutputList 中索引 {index} 的 UTXO (txId: {utxo.txId}) 缺少私钥 (privateKey)"
    else checkPrivateKeys rest (index + 1)

/-- The settings `buildEnhancedInscriptionChains` receives from a request. -/
def InscriptionRequest.chainParams (request : InscriptionRequest) : ChainParams :=
  ⟨request.revealOutValueOrDefault, request.revealFeeRate, request.changeAddress,
    request.minChangeValueOrDefault, request.commitFeeRate⟩

/-- `ChainInscriptionTool.newChainInscriptionTool(network, request)`, in a run whose calls of
`base.randomBytes(32)` return `rand`. -/
def newChainInscriptionTool (rand : RandomDraws) (request : InscriptionRequest) :
    Except String (ChainInscriptionTool η) :=
  match request.commitTxPrevOutputList with
  | [] => throw "输入错误：commitTxPrevOutputList 不能为空"
  | primary :: _ =>
    if request.inscriptionDataList.isEmpty then throw "输入错误：inscriptionDataList 不能为空"
    else do
      checkPrivateKeys request.commitTxPrevOutputList 0
      let contexts ← request.inscriptionDataList.mapM fun inscriptionData =>
        createInscriptionTxCtxData L network inscriptionData primary.privateKey
      let tool := { (ChainInscriptionTool.init : ChainInscriptionTool η) with
        network := network, inscriptionTxCtxDataList := contexts }
      let tool ← buildEnhancedInscriptionChains L network rand tool
        request.commitTxPrevOutputList request.chainParams
      signAllTransactions L network rand tool request.commitTxPrevOutputList

/-- The `LastTxInfo` of a chain whose last transaction is `lastTx`, spending output
`inputVout` of `prevTx`, which has it. -/
def lastTxInfo (tool : ChainInscriptionTool η) (request : InscriptionRequest) (chainIndex : ℕ)
    (lastTxIndex : ℕ) (lastTx prevTx : Transaction η) (inputVout : ℕ) (inputValue : ℤ) :
    LastTxInfo :=
  let feeInfo := tool.txFees.find? fun f => f.chainIndex = chainIndex ∧ f.txIndex = lastTxIndex
  let outputs := lastTx.outs.map fun o => (⟨L.toHex o.script, o.value⟩ : OutputInfo)
  let mappingInfo := tool.chainContextMapping.find? fun m =>
    m.chainIndex = chainIndex ∧ m.txIndex = lastTxIndex
  let context := (mappingInfo.bind (·.contextIndex)).bind (tool.inscriptionTxCtxDataList[·]?)
  { txId := L.getId lastTx
    hex := L.txToHex lastTx
    fee := (feeInfo.map (·.fee)).getD 0
    inputTxId := L.getId prevTx
    inputVout := inputVout
    inputValue := inputValue
    outputs := outputs
    signingPrivateKeyWIF := (context.map fun c => L.private2Wif c.privateKey tool.network).getD ""
    finalChangeAddress := request.changeAddress
    network := tool.network
    revealOutValue := request.revealOutValueOrDefault
    minChangeValue := request.minChangeValueOrDefault
    prevInputPkScriptHex := (context.map fun c => L.toHex c.commitTxAddressPkScript).getD ""
    revealPkScriptHex := (outputs[0]?.map (·.pkScriptHex)).getD ""
    finalChangePkScriptHex := (outputs[1]?.map (·.pkScriptHex)).getD ""
    tapScriptTreeHashHex := (context.map fun c => L.toHex c.hash).getD ""
    networkType := if tool.network = .bitcoin then "mainnet" else "testnet" }

/-- The packager's pass over chain `chainIndex`: its hex strings, its ids and, when it has a
commit and a reveal, its `LastTxInfo`. -/
def packChain (tool : ChainInscriptionTool η) (request : InscriptionRequest) (chainIndex : ℕ)
    (chain : List (Transaction η)) :
    Except String (List String × List String × Option LastTxInfo) :=
  if h : chain.length < 2 then pure ([], [], none)
  else
    let lastTxIndex := chain.length - 1
    let lastTx := chain.get ⟨lastTxIndex, by omega⟩
    let prevTx := chain.get ⟨lastTxIndex - 1, by omega⟩
    let chainHex := chain.map L.txToHex
    let chainTxIds := chain.map L.getId
    match lastTx.ins[0]? with
    | none => throw "Cannot read properties of undefined (reading 'index')"
    | some inputInfo =>
      if hv : inputInfo.index ≥ prevTx.outs.length then pure (chainHex, chainTxIds, none)
      else
        let inputValue := (prevTx.outs.get ⟨inputInfo.index, Nat.lt_of_not_le hv⟩).value
        pure (chainHex, chainTxIds, some
          (lastTxInfo L tool request chainIndex lastTxIndex lastTx prevTx inputInfo.index
            inputValue))

/-- The packager's `txChains.forEach`, from chain `chainIndex` on. -/
def packChains (tool : ChainInscriptionTool η) (request : InscriptionRequest) :
    List (List (Transaction η)) → ℕ →
      Except String (List (List String × List String × Option LastTxInfo))
  | [], _ => pure []
  | chain :: rest, chainIndex => do
    let packed ← packChain L tool request chainIndex chain
    let packedRest ← packChains tool request rest (chainIndex + 1)
    pure (packed :: packedRest)

/-- `inscribeChain(network, request)`, in a run whose calls of `base.randomBytes(32)` return
`rand`. -/
def inscribeChain (rand : RandomDraws) (request : InscriptionRequest) : ChainInscribeResult :=
  let run : Except String (ChainInscriptionTool η × List (List String × List String ×
      Option LastTxInfo)) := do
    let tool ← newChainInscriptionTool L network rand request
    let packed ← packChains L tool request tool.txChains 0
    pure (tool, packed)
  match run with
  | .ok (tool, packed) =>
    { success := true
      txChains := packed.map (·.1)
      txChainTxIds := packed.map (·.2.1)
      lastTxDetails := packed.filterMap (·.2.2)
      totalEstimatedFee := tool.totalEstimatedFee
      error := none }
  | .error message =>
    { success := false, txChains := [], txChainTxIds := [], lastTxDetails := [],
      totalEstimatedFee := 0, error := some (if message = "" then "未知错误" else message) }

end ChainInscription
