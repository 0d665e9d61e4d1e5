import ChainInscription.Library

/-!
# A reference library

An executable instance of `BitcoinLib`, small enough to run the whole builder on concrete
requests by evaluation. Its transaction hashes are the witness-free transactions themselves,
so hashing never collides and a hash is never the reversed id of a funding transaction; a
transaction's id shows the sizes of its input scripts and its output values; its addresses are
the text of their output scripts; its size counts bytes, witness bytes at a quarter. Keys and
signatures are placeholders of the right lengths.
-/

namespace ChainInscription

/-- Transaction hashes of the reference library: a funding transaction's id, or a transaction
built here. -/
inductive RefHash where
  | txId (s : String)
  | tx (t : Transaction RefHash)

/-- Text as bytes, one per character. -/
def refBytes (s : String) : Bytes := s.toList.map fun c => c.toNat.toUInt8

/-- Bytes as text, one character per byte. -/
def refText (b : Bytes) : String := String.mk (b.map fun x => Char.ofNat x.toNat)

/-- Virtual size: ten bytes of framing, forty-one per input plus a quarter of its script and
witness bytes, nine per output plus its script. -/
def refVsize (t : Transaction RefHash) : ℕ :=
  10 + (t.ins.map fun i => 41 + (i.script.length + (i.witness.map List.length).sum) / 4).sum +
    (t.outs.map fun o => 9 + o.script.length).sum

/-- A transaction id: a funding transaction's id as given, and for a built transaction the sizes
of its input scripts, the part of it that signing a funding input changes, and its output
values. -/
def refHashId : RefHash → String
  | .txId s => s
  | .tx t => "tx" ++ toString (t.ins.map fun i => i.script.length) ++
      toString (t.outs.map Output.value)

/-- The address of a one-leaf tree: the leaf script's length after a `p`. -/
def refP2trAddress (script : Bytes) : String := "p" ++ toString script.length

/-- The reference library. Addresses starting `1`, `3`, `q` and `p` are P2PKH, nested segwit,
native segwit and Taproot. -/
def refLib : BitcoinLib RefHash where
  fromHex := refBytes
  toHex := refText
  txIdHash := .txId
  privateKeyFromWIF w _ := if w = "" then .error "Invalid WIF" else .ok w
  wif2Public w _ := .ok (2 :: refBytes w)
  private2public h := 2 :: refBytes h
  private2Wif k _ := "K" ++ refText k
  getAddressType a _ := match a.front with
    | '1' => .legacy
    | '3' => .segwitNested
    | 'q' => .segwitNative
    | 'p' => .segwitTaproot
    | _ => .other
  sign _ _ := List.replicate 64 1
  toOutputScript a _ := if a = "" then .error "Invalid address" else .ok (refBytes a)
  hashTx := .tx
  hashToId := refHashId
  txToHex _ := "hex"
  hashForSignature _ _ _ _ := List.replicate 32 0
  hashForWitness _ _ _ _ _ := List.replicate 32 0
  hashForWitnessV1 _ _ _ _ _ _ := List.replicate 32 0
  signatureEncode s t := s ++ [t.toUInt8]
  p2pkhInput s p := s.length.toUInt8 :: s ++ p.length.toUInt8 :: p
  hash160 b := b.take 20
  compile es := es.flatMap fun
    | .data b => b.length.toUInt8 :: b
    | .opcode n => [n.toUInt8]
  p2tr pk s _ :=
    ⟨refBytes (refP2trAddress s), [s, 0xc0 :: pk], [s.length.toUInt8], refP2trAddress s⟩
  taprootTweakPrivKey k := k
  schnorrSign _ _ aux := ⟨(aux ++ List.replicate 64 7).take 64, by simp⟩
  countAdjustedVsize t _ _ := .ok (refVsize t)

/-- Draws for runs on the reference library: every call returns 32 zero bytes. -/
def refDraws : RandomDraws := ⟨fun _ _ => List.replicate 32 0, fun _ _ _ => List.replicate 32 0⟩

/-- The reference library's `toOutputScript` turns a `p2tr` address back into its output
script. -/
theorem refLib_toOutputScript_p2tr (pk s : Bytes) (n : Network) :
    refLib.toOutputScript (refLib.p2tr pk s n).address n = .ok (refLib.p2tr pk s n).output := by
  have : refP2trAddress s ≠ "" := fun h => by
    have := congrArg String.length h
    simp only [refP2trAddress, String.length_append, String.length_empty] at this
    have hp : "p".length = 1 := rfl
    omega
  simp [refLib, this]

/-- The reference library's size reads only what `Transaction.shape` keeps of a transaction. -/
theorem refVsize_eq_shape (t : Transaction RefHash) :
    refVsize t = 10 + (t.shape.2.2.1.map fun y => 41 + (y.2.2.1.length + y.2.2.2.2.sum) / 4).sum +
      (t.shape.2.2.2.map fun s => 9 + s.length).sum := by
  simp [refVsize, Transaction.shape, List.map_map, Function.comp_def]

/-- The reference library's size reads only what `Transaction.frame` keeps of a transaction. -/
theorem refVsize_eq_frame (t : Transaction RefHash) :
    refVsize t = 10 + (t.frame.2.2.1.map fun y => 41 + (y.2.1.length + y.2.2.2.sum) / 4).sum +
      (t.frame.2.2.2.map fun s => 9 + s.length).sum := by
  simp [refVsize, Transaction.frame, List.map_map, Function.comp_def]

theorem refLib_countAdjustedVsize_shape (tx tx' : Transaction RefHash) (addrs : List String)
    (n : Network) (h : tx.shape = tx'.shape) :
    refLib.countAdjustedVsize tx addrs n = refLib.countAdjustedVsize tx' addrs n := by
  show Except.ok (refVsize tx) = Except.ok (refVsize tx')
  rw [refVsize_eq_shape, refVsize_eq_shape, h]

end ChainInscription
