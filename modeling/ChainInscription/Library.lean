import ChainInscription.Transaction

/-!
# The library interface

Everything the chain builder calls but does not define: the serialisation and script helpers of
`bitcoinjs-lib`, the key and address helpers of `txBuild` and `@okxweb3/crypto-lib`, the Schnorr
signer and `countAdjustedVsize`. `BitcoinLib η` collects them as a record of functions over the
hash type `η`, so that every result below holds for any library that has these signatures; a
result that needs a property of the library states it as a hypothesis.

Functions that parse caller-supplied text (WIF keys, addresses) or size a transaction may throw
and return `Except String`; the others are total.

Every Schnorr signature draws fresh auxiliary randomness, `base.randomBytes(32)`, so a run is
not a function of its request: `RandomDraws` holds what those calls return in one run, and every
function that signs takes it. A result about one run holds for every draw; two runs compared
have draws of their own. The ECDSA signer `sign` is given no randomness.
-/

namespace ChainInscription

/-- The `bitcoin.networks` a tool can be given. -/
inductive Network where
  | bitcoin
  | testnet
  | regtest
  deriving DecidableEq, Repr

/-- What `getAddressType` reports for a funding address. -/
inductive AddressType where
  | legacy
  | segwitNative
  | segwitNested
  | segwitTaproot
  | other
  deriving DecidableEq, Repr

/-- A `bitcoin.payments.StackElement`: a data push or an opcode. -/
inductive StackElement where
  | data (b : Bytes)
  | opcode (op : ℕ)
  deriving DecidableEq, Repr

/-- The fields of a `bitcoin.payments.p2tr` payment the builder reads. -/
structure P2trPayment where
  output : Bytes
  witness : List Bytes
  hash : Bytes
  address : String
  deriving DecidableEq, Repr

/-- A BIP340 Schnorr signature, sixty-four bytes by construction. -/
structure SchnorrSig where
  bytes : Bytes
  length_eq : bytes.length = 64

/-- The opcodes the envelope uses, from `bitcoin.script.OPS`. -/
def opFalse : ℕ := 0x00
def opData1 : ℕ := 0x01
def opIf : ℕ := 0x63
def opEndif : ℕ := 0x68
def opChecksig : ℕ := 0xac

/-- `bitcoin.Transaction.SIGHASH_DEFAULT` and `SIGHASH_ALL`. -/
def sighashDefault : ℕ := 0x00
def sighashAll : ℕ := 0x01

/-- The external functions the chain builder calls, over transaction hashes of type `η`. -/
structure BitcoinLib (η : Type) where
  /-- `base.fromHex`. -/
  fromHex : String → Bytes
  /-- `base.toHex`, and `Buffer.toString('hex')`. -/
  toHex : Bytes → String
  /-- `base.reverseBuffer(base.fromHex(txId))`: the hash an input names a transaction by. -/
  txIdHash : String → η
  privateKeyFromWIF : String → Network → Except String String
  wif2Public : String → Network → Except String Bytes
  private2public : String → Bytes
  private2Wif : Bytes → Network → String
  getAddressType : String → Network → AddressType
  /-- ECDSA `sign(hash, privateKeyHex)`. -/
  sign : Bytes → String → Bytes
  /-- `bitcoin.address.toOutputScript`. -/
  toOutputScript : String → Network → Except String Bytes
  /-- Double SHA-256 of a witness-free serialisation. -/
  hashTx : Transaction η → η
  /-- `getId()` from `getHash()`: the reversed hash in hex. -/
  hashToId : η → String
  /-- `tx.toHex()`, witnesses included. -/
  txToHex : Transaction η → String
  hashForSignature : Transaction η → ℕ → Bytes → ℕ → Bytes
  hashForWitness : Transaction η → ℕ → Bytes → ℤ → ℕ → Bytes
  /-- `hashForWitnessV1(i, prevOutScripts, values, hashType, leafHash?)`. -/
  hashForWitnessV1 : Transaction η → ℕ → List Bytes → List ℤ → ℕ → Option Bytes → Bytes
  /-- `bitcoin.script.signature.encode(signature, hashType)`. -/
  signatureEncode : Bytes → ℕ → Bytes
  /-- `bitcoin.payments.p2pkh({ signature, pubkey }).input`. -/
  p2pkhInput : Bytes → Bytes → Bytes
  hash160 : Bytes → Bytes
  /-- `bitcoin.script.compile`. -/
  compile : List StackElement → Bytes
  /-- `bitcoin.payments.p2tr` for an internal key and a one-leaf script tree whose leaf is also
  the redeem script, at leaf version `0xc0`. -/
  p2tr : Bytes → Bytes → Network → P2trPayment
  taprootTweakPrivKey : Bytes → Bytes
  /-- `schnorr.sign(hash, privateKey, auxRand)`. -/
  schnorrSign : Bytes → Bytes → Bytes → SchnorrSig
  countAdjustedVsize : Transaction η → List String → Network → Except String ℕ

/-- What the calls `base.randomBytes(32)` of one run return, named by the Schnorr signature that
draws them: `sizing c i` for input `i` of the clone the estimator signs to price chain `c`'s
commit, `signing c t i` for input `i` of transaction `t` of chain `c` when the signer signs it. -/
structure RandomDraws where
  sizing : ℕ → ℕ → Bytes
  signing : ℕ → ℕ → ℕ → Bytes

/-- The draws of a run that starts where another reaches chain `m`: its chain `c` draws what
chain `m + c` of the other drew. -/
def RandomDraws.shift (rand : RandomDraws) (m : ℕ) : RandomDraws :=
  ⟨fun c => rand.sizing (m + c), fun c => rand.signing (m + c)⟩

@[simp] theorem RandomDraws.shift_sizing (rand : RandomDraws) (m c : ℕ) :
    (rand.shift m).sizing c = rand.sizing (m + c) := rfl
@[simp] theorem RandomDraws.shift_signing (rand : RandomDraws) (m c : ℕ) :
    (rand.shift m).signing c = rand.signing (m + c) := rfl

namespace BitcoinLib
variable {η : Type} (L : BitcoinLib η)

/-- `tx.getHash()`. -/
def getHash (tx : Transaction η) : η := L.hashTx tx.stripWitness

/-- `tx.getId()`. -/
def getId (tx : Transaction η) : String := L.hashToId (L.getHash tx)

@[simp] theorem getHash_setWitness (tx : Transaction η) (i : ℕ) (w : List Bytes) :
    L.getHash (tx.setWitness i w) = L.getHash tx := by
  simp [getHash]

end BitcoinLib

/-! ## Reasoning about `Except` -/

theorem Except.bind_eq_ok {ε α β : Type} {x : Except ε α} {f : α → Except ε β} {b : β} :
    x >>= f = .ok b ↔ ∃ a, x = .ok a ∧ f a = .ok b := by
  cases x <;> simp [bind, Except.bind]

@[simp] theorem Except.ok_bind {ε α β : Type} (a : α) (f : α → Except ε β) :
    (Except.ok a : Except ε α) >>= f = f a := rfl

@[simp] theorem Except.pure_eq_ok {ε α : Type} {a b : α} :
    (pure a : Except ε α) = .ok b ↔ a = b := by
  simp [pure, Except.pure]

@[simp] theorem Except.throw_ne_ok {α : Type} {e : String} {b : α} :
    (throw e : Except String α) ≠ .ok b := by
  simp [throw, throwThe, MonadExceptOf.throw]

end ChainInscription
