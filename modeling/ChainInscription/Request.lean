import ChainInscription.Library
import ChainInscription.FeeRate

/-!
# Requests, inscription contexts and the tool's state

The records of `inscribe_chain.ts`: the request and its funding outputs, the per-inscription
context `InscriptionTxCtxData`, the mutable fields of `ChainInscriptionTool`, and the result
envelope with its `LastTxInfo` records. Fields that no modelled function reads (`publicKey` of a
funding output, the request's `shareData` family, the context's `revealTxPrevOutput` placeholder
and the tool's write-only `utxoMap`) are left out.

Amounts given by the caller are satoshis, natural numbers, which JavaScript holds exactly below
`2^53`. Fee rates are JavaScript numbers of any kind, `FeeRate`s.
-/

namespace ChainInscription

/-- `DEFAULT_SEQUENCE_NUM`: opts every input into replace-by-fee. -/
def defaultSequenceNum : ℕ := 0xfffffffd
/-- `MAX_TRANSACTIONS_PER_CHAIN`. -/
def maxTransactionsPerChain : ℕ := 25
/-- `DEFAULT_TX_VERSION`. -/
def defaultTxVersion : ℕ := 2
/-- `DEFAULT_REVEAL_OUT_VALUE`. -/
def defaultRevealOutValue : ℕ := 546
/-- `DEFAULT_MIN_CHANGE_VALUE`. -/
def defaultMinChangeValue : ℕ := 546

/-- `PrevOutput`: a funding output and the WIF key that spends it. -/
structure PrevOutput where
  txId : String
  vOut : ℕ
  amount : ℕ
  address : String
  privateKey : String
  deriving DecidableEq, Repr

/-- The body of an inscription, `string | Buffer`. -/
inductive InscriptionBody where
  | text (s : String)
  | buffer (b : Bytes)
  deriving DecidableEq, Repr

/-- `Buffer.from(body)`: a string body is taken as its UTF-8 bytes. -/
def InscriptionBody.toBytes : InscriptionBody → Bytes
  | .text s => s.toUTF8.data.toList
  | .buffer b => b

/-- `InscriptionData`. -/
structure InscriptionData where
  contentType : String
  body : InscriptionBody
  revealAddr : String
  deriving DecidableEq, Repr

/-- `InscriptionRequest`, without the fields kept only for type compatibility. -/
structure InscriptionRequest where
  commitTxPrevOutputList : List PrevOutput
  commitFeeRate : FeeRate
  revealFeeRate : FeeRate
  inscriptionDataList : List InscriptionData
  revealOutValue : ℕ
  changeAddress : String
  minChangeValue : Option ℕ

/-- `request.revealOutValue || DEFAULT_REVEAL_OUT_VALUE`. -/
def InscriptionRequest.revealOutValueOrDefault (r : InscriptionRequest) : ℕ :=
  if r.revealOutValue = 0 then defaultRevealOutValue else r.revealOutValue

/-- `request.minChangeValue || DEFAULT_MIN_CHANGE_VALUE`. -/
def InscriptionRequest.minChangeValueOrDefault (r : InscriptionRequest) : ℕ :=
  match r.minChangeValue with
  | none => defaultMinChangeValue
  | some v => if v = 0 then defaultMinChangeValue else v

theorem InscriptionRequest.revealOutValueOrDefault_pos (r : InscriptionRequest) :
    0 < r.revealOutValueOrDefault := by
  unfold revealOutValueOrDefault defaultRevealOutValue; split <;> omega

theorem InscriptionRequest.minChangeValueOrDefault_pos (r : InscriptionRequest) :
    0 < r.minChangeValueOrDefault := by
  unfold minChangeValueOrDefault defaultMinChangeValue
  split
  · decide
  · split <;> omega

/-- `InscriptionTxCtxData`: what one inscription's commit and reveal need. -/
structure InscriptionTxCtxData where
  privateKey : Bytes
  inscriptionScript : Bytes
  commitTxAddress : String
  commitTxAddressPkScript : Bytes
  /-- The reveal witness without its signature: `[inscriptionScript, controlBlock]`. -/
  witness : List Bytes
  /-- The TapLeaf hash, the message domain of the reveal's script-path signature. -/
  hash : Bytes
  revealPkScript : Bytes
  deriving DecidableEq, Repr

/-- An entry of `chainContextMapping`. -/
structure ContextMapping where
  chainIndex : ℕ
  txIndex : ℕ
  contextIndex : Option ℕ
  deriving DecidableEq, Repr

/-- An entry of `txFees`. -/
structure TxFee where
  chainIndex : ℕ
  txIndex : ℕ
  fee : ℤ
  deriving DecidableEq, Repr

/-- The mutable state of a `ChainInscriptionTool`. -/
structure ChainInscriptionTool (η : Type) where
  network : Network
  inscriptionTxCtxDataList : List InscriptionTxCtxData
  txChains : List (List (Transaction η))
  totalEstimatedFee : ℤ
  chainContextMapping : List ContextMapping
  txFees : List TxFee

namespace ChainInscriptionTool
variable {η : Type}

/-- `new ChainInscriptionTool()`. -/
def init : ChainInscriptionTool η := ⟨.bitcoin, [], [], 0, [], []⟩

/-- The three statements the builder runs for every transaction it accepts: the fee is added to
`totalEstimatedFee` and recorded in `txFees`, and the context index in `chainContextMapping`. -/
def recordTx (tool : ChainInscriptionTool η) (chainIndex txIndex : ℕ) (fee : ℤ)
    (contextIndex : Option ℕ) : ChainInscriptionTool η :=
  { tool with
    totalEstimatedFee := tool.totalEstimatedFee + fee
    txFees := tool.txFees ++ [⟨chainIndex, txIndex, fee⟩]
    chainContextMapping := tool.chainContextMapping ++ [⟨chainIndex, txIndex, contextIndex⟩] }

@[simp] theorem recordTx_txChains (tool : ChainInscriptionTool η) (c t : ℕ) (f : ℤ)
    (x : Option ℕ) : (tool.recordTx c t f x).txChains = tool.txChains := rfl
@[simp] theorem recordTx_network (tool : ChainInscriptionTool η) (c t : ℕ) (f : ℤ)
    (x : Option ℕ) : (tool.recordTx c t f x).network = tool.network := rfl
@[simp] theorem recordTx_inscriptionTxCtxDataList (tool : ChainInscriptionTool η) (c t : ℕ)
    (f : ℤ) (x : Option ℕ) :
    (tool.recordTx c t f x).inscriptionTxCtxDataList = tool.inscriptionTxCtxDataList := rfl
@[simp] theorem recordTx_txFees (tool : ChainInscriptionTool η) (c t : ℕ) (f : ℤ)
    (x : Option ℕ) : (tool.recordTx c t f x).txFees = tool.txFees ++ [⟨c, t, f⟩] := rfl
@[simp] theorem recordTx_chainContextMapping (tool : ChainInscriptionTool η) (c t : ℕ) (f : ℤ)
    (x : Option ℕ) :
    (tool.recordTx c t f x).chainContextMapping = tool.chainContextMapping ++ [⟨c, t, x⟩] := rfl
@[simp] theorem recordTx_totalEstimatedFee (tool : ChainInscriptionTool η) (c t : ℕ) (f : ℤ)
    (x : Option ℕ) : (tool.recordTx c t f x).totalEstimatedFee = tool.totalEstimatedFee + f := rfl

/-- The tool after recording the ledger entries `fees` and the mapping entries `maps`, the fees
also added to `totalEstimatedFee`. -/
def recordAll (tool : ChainInscriptionTool η) (fees : List TxFee) (maps : List ContextMapping) :
    ChainInscriptionTool η :=
  { tool with
    totalEstimatedFee := tool.totalEstimatedFee + (fees.map (·.fee)).sum
    txFees := tool.txFees ++ fees
    chainContextMapping := tool.chainContextMapping ++ maps }

theorem recordTx_eq_recordAll (tool : ChainInscriptionTool η) (c t : ℕ) (f : ℤ)
    (x : Option ℕ) : tool.recordTx c t f x = tool.recordAll [⟨c, t, f⟩] [⟨c, t, x⟩] := by
  simp [recordTx, recordAll]

@[simp] theorem recordAll_recordAll (tool : ChainInscriptionTool η) (fs fs' : List TxFee)
    (ms ms' : List ContextMapping) :
    (tool.recordAll fs ms).recordAll fs' ms' = tool.recordAll (fs ++ fs') (ms ++ ms') := by
  simp [recordAll, add_assoc, List.sum_append]

@[simp] theorem recordAll_nil (tool : ChainInscriptionTool η) : tool.recordAll [] [] = tool := by
  simp [recordAll]

@[simp] theorem recordAll_txChains (tool : ChainInscriptionTool η) (fs : List TxFee)
    (ms : List ContextMapping) : (tool.recordAll fs ms).txChains = tool.txChains := rfl
@[simp] theorem recordAll_inscriptionTxCtxDataList (tool : ChainInscriptionTool η)
    (fs : List TxFee) (ms : List ContextMapping) :
    (tool.recordAll fs ms).inscriptionTxCtxDataList = tool.inscriptionTxCtxDataList := rfl
@[simp] theorem recordAll_network (tool : ChainInscriptionTool η) (fs : List TxFee)
    (ms : List ContextMapping) : (tool.recordAll fs ms).network = tool.network := rfl
@[simp] theorem recordAll_txFees (tool : ChainInscriptionTool η) (fs : List TxFee)
    (ms : List ContextMapping) : (tool.recordAll fs ms).txFees = tool.txFees ++ fs := rfl
@[simp] theorem recordAll_chainContextMapping (tool : ChainInscriptionTool η) (fs : List TxFee)
    (ms : List ContextMapping) :
    (tool.recordAll fs ms).chainContextMapping = tool.chainContextMapping ++ ms := rfl
@[simp] theorem recordAll_totalEstimatedFee (tool : ChainInscriptionTool η) (fs : List TxFee)
    (ms : List ContextMapping) :
    (tool.recordAll fs ms).totalEstimatedFee = tool.totalEstimatedFee + (fs.map (·.fee)).sum :=
  rfl

end ChainInscriptionTool

/-- An entry of `LastTxInfo.outputs`. -/
structure OutputInfo where
  pkScriptHex : String
  value : ℤ
  deriving DecidableEq, Repr

/-- `LastTxInfo`: what a replace-by-fee rebuilder needs about a chain's last transaction. -/
structure LastTxInfo where
  txId : String
  hex : String
  fee : ℤ
  inputTxId : String
  inputVout : ℕ
  inputValue : ℤ
  outputs : List OutputInfo
  signingPrivateKeyWIF : String
  finalChangeAddress : String
  network : Network
  revealOutValue : ℕ
  minChangeValue : ℕ
  prevInputPkScriptHex : String
  revealPkScriptHex : String
  finalChangePkScriptHex : String
  tapScriptTreeHashHex : String
  networkType : String
  deriving DecidableEq, Repr

/-- `ChainInscribeResult`. -/
structure ChainInscribeResult where
  success : Bool
  txChains : List (List String)
  txChainTxIds : List (List String)
  lastTxDetails : List LastTxInfo
  totalEstimatedFee : ℤ
  error : Option String
  deriving DecidableEq, Repr

end ChainInscription
