import ChainInscription.Request

/-!
# Signing a funding input

`signTx` signs every input of a transaction for the funding output at the same position, by the
scheme `getAddressType` reports for its address: a Taproot key-path signature, a P2PKH input
script, or a segwit witness (with the redeem script as input script for a nested address). The
estimator runs it on a clone to size a commit; the signer runs it on the commit itself.

Two facts about it matter to the chains built on a commit. Whether it throws depends on the
funding outputs and the number of inputs only, never on the transaction's other contents. And it
changes the witness-free part of the transaction, which the transaction hash commits to, exactly
when it writes an input script: for a P2PKH or a nested segwit address.
-/

namespace ChainInscription

variable {η : Type} (L : BitcoinLib η) (network : Network)

/-- The body of `signTx`'s `forEach` for input `i`, funded by `prev`; a Taproot signature draws
`auxRand`. -/
def signInput (commitTxPrevOutputList : List PrevOutput) (tx : Transaction η) (i : ℕ)
    (prev : PrevOutput) (auxRand : Bytes) : Except String (Transaction η) := do
  let addressType := L.getAddressType prev.address network
  let privateKey := L.fromHex (← L.privateKeyFromWIF prev.privateKey network)
  let privateKeyHex := L.toHex privateKey
  let publicKey := L.private2public privateKeyHex
  match addressType with
  | .segwitTaproot =>
    let prevOutScripts ← commitTxPrevOutputList.mapM fun o => L.toOutputScript o.address network
    let values := commitTxPrevOutputList.map fun o => (o.amount : ℤ)
    let hash := L.hashForWitnessV1 tx i prevOutScripts values sighashDefault none
    let signature := L.schnorrSign hash (L.taprootTweakPrivKey privateKey) auxRand
    pure (tx.setWitness i [signature.bytes])
  | .legacy =>
    let prevScript ← L.toOutputScript prev.address network
    let hash := L.hashForSignature tx i prevScript sighashAll
    let signature := L.sign hash privateKeyHex
    pure (tx.setScript i (L.p2pkhInput (L.signatureEncode signature sighashAll) publicKey))
  | _ =>
    let pubKeyHash := L.hash160 publicKey
    let prevOutScript := [0x19, 0x76, 0xa9, 0x14] ++ pubKeyHash ++ [0x88, 0xac]
    let hash := L.hashForWitness tx i prevOutScript prev.amount sighashAll
    let signature := L.sign hash privateKeyHex
    let signed := tx.setWitness i [L.signatureEncode signature sighashAll, publicKey]
    let redeemScript := [0x16, 0, 20] ++ pubKeyHash
    pure (if addressType = .segwitNested then signed.setScript i redeemScript else signed)

/-- `signTx(tx, commitTxPrevOutputList, network)`, input `i` drawing `auxRand i`. An input
without a funding output reads a field of `undefined`. -/
def signTx (tx : Transaction η) (commitTxPrevOutputList : List PrevOutput) (auxRand : ℕ → Bytes) :
    Except String (Transaction η) :=
  (List.range tx.ins.length).foldlM (fun tx i =>
    match commitTxPrevOutputList[i]? with
    | some prev => signInput L network commitTxPrevOutputList tx i prev (auxRand i)
    | none => throw "Cannot read properties of undefined (reading 'address')") tx

/-- What `signInput` writes, by address type. -/
inductive SignedAs (tx : Transaction η) (i : ℕ) (prev : PrevOutput) : Transaction η → Prop
  | witness (w : List Bytes) (h : L.getAddressType prev.address network ≠ .legacy)
      (h' : L.getAddressType prev.address network ≠ .segwitNested) :
      SignedAs tx i prev (tx.setWitness i w)
  | legacy (s : Bytes) (h : L.getAddressType prev.address network = .legacy) :
      SignedAs tx i prev (tx.setScript i s)
  | nested (w : List Bytes) (pub : Bytes)
      (h : L.getAddressType prev.address network = .segwitNested) :
      SignedAs tx i prev ((tx.setWitness i w).setScript i ([0x16, 0, 20] ++ L.hash160 pub))

variable {L network}

theorem signInput_ok {ps : List PrevOutput} {tx tx' : Transaction η} {i : ℕ} {prev : PrevOutput}
    {aux : Bytes} (h : signInput L network ps tx i prev aux = .ok tx') :
    SignedAs L network tx i prev tx' := by
  unfold signInput at h
  cases hk : L.privateKeyFromWIF prev.privateKey network <;> simp only [hk] at h
  · cases h
  cases ht : L.getAddressType prev.address network <;> simp only [ht] at h
  · cases hs : L.toOutputScript prev.address network <;> simp only [hs] at h
    · cases h
    cases h; exact .legacy _ ht
  · cases h; exact .witness _ (by simp [ht]) (by simp [ht])
  · cases h; exact .nested _ _ ht
  · cases hs : ps.mapM fun o => L.toOutputScript o.address network <;> simp only [hs] at h
    · cases h
    cases h; exact .witness _ (by simp [ht]) (by simp [ht])
  · cases h; exact .witness _ (by simp [ht]) (by simp [ht])

end ChainInscription
