import ChainInscription.Request

/-!
# The inscription envelope

`createInscriptionTxCtxData` compiles one inscription into its Taproot leaf script

```
<x-only internal key> OP_CHECKSIG OP_FALSE OP_IF "ord" OP_DATA_1 OP_DATA_1 <content type>
  OP_0 <body chunk> ... <body chunk> OP_ENDIF
```

and derives from it, through the library's `p2tr`, the commit address and output script, the
reveal witness without its signature and the leaf hash. Every context of a request is built from
the same key, the first funding output's.

The body is pushed in chunks of at most `maxChunkSize` bytes by the source's `for` loop, which
`bodyChunksFrom` runs with an explicit number of passes; `bodyChunks` gives it one pass per byte,
more than the loop can make.
-/

namespace ChainInscription

/-- `OP_0`, the body tag. -/
def op0 : ℕ := 0x00

/-- `maxChunkSize`: the largest data push the envelope makes. -/
def maxChunkSize : ℕ := 520

/-- `for (let i = start; i < bodySize; i += maxChunkSize)`, for at most `fuel` passes: each pass
pushes `body.slice(i, end)` with `end` cut back to `bodySize`. -/
def bodyChunksFrom (body : Bytes) : ℕ → ℕ → List Bytes
  | 0, _ => []
  | fuel + 1, i =>
    if i < body.length then
      let stop := if i + maxChunkSize > body.length then body.length else i + maxChunkSize
      slice body i stop :: bodyChunksFrom body fuel (i + maxChunkSize)
    else []

/-- The chunks the envelope pushes for a body. -/
def bodyChunks (body : Bytes) : List Bytes := bodyChunksFrom body body.length 0

@[simp] theorem maxChunkSize_eq : maxChunkSize = 520 := rfl

/-- `inscriptionBuilder`: the stack elements of the leaf script. -/
def inscriptionBuilder (internalPubKey : Bytes) (inscriptionData : InscriptionData) :
    List StackElement :=
  [.data internalPubKey, .opcode opChecksig, .opcode opFalse, .opcode opIf,
    .data "ord".toUTF8.data.toList, .opcode opData1, .opcode opData1,
    .data inscriptionData.contentType.toUTF8.data.toList, .opcode op0] ++
  (bodyChunks inscriptionData.body.toBytes).map .data ++ [.opcode opEndif]

/-! ## The body chunks

The loop's cursor starts at `0` and moves `maxChunkSize` bytes a pass; each pass pushes the
bytes from the cursor to the next multiple or to the end of the body. The two equations below
are the only places the loop is unfolded. -/

section Chunks
variable (body : Bytes) {fuel i : ℕ}

/-- A pass with the cursor inside the body pushes the next `maxChunkSize` bytes, or what is left
of the body. -/
theorem bodyChunksFrom_succ_of_lt (h : i < body.length) :
    bodyChunksFrom body (fuel + 1) i =
      (body.drop i).take maxChunkSize :: bodyChunksFrom body fuel (i + maxChunkSize) := by
  simp only [bodyChunksFrom, if_pos h, slice, List.cons.injEq, and_true]
  exact List.take_eq_take.2 (by simp only [List.length_drop]; split <;> omega)

/-- With the cursor at or past the end the loop stops. -/
theorem bodyChunksFrom_of_le (h : body.length ≤ i) : bodyChunksFrom body fuel i = [] := by
  cases fuel <;> simp [bodyChunksFrom, not_lt.2 h]

/-- Every chunk holds one to `maxChunkSize` bytes, however many passes the loop is given. -/
theorem mem_bodyChunksFrom {c : Bytes} (hc : c ∈ bodyChunksFrom body fuel i) :
    c ≠ [] ∧ c.length ≤ maxChunkSize := by
  induction fuel generalizing i with
  | zero => simp [bodyChunksFrom] at hc
  | succ fuel ih =>
    by_cases h : i < body.length
    · rw [bodyChunksFrom_succ_of_lt body h] at hc
      rcases List.mem_cons.1 hc with rfl | hc
      · simp only [ne_eq, List.take_eq_nil_iff, List.drop_eq_nil_iff, List.length_take,
          maxChunkSize_eq]
        omega
      · exact ih hc
    · simp [bodyChunksFrom_of_le body (not_lt.1 h)] at hc

/-- With a pass for every `maxChunkSize` bytes left, the loop pushes `⌈(L - i) / 520⌉` chunks. -/
theorem length_bodyChunksFrom (hfuel : body.length ≤ i + maxChunkSize * fuel) :
    (bodyChunksFrom body fuel i).length = (body.length - i + 519) / 520 := by
  induction fuel generalizing i with
  | zero =>
    rw [bodyChunksFrom_of_le body (by simpa using hfuel), List.length_nil]
    simp only [Nat.mul_zero, Nat.add_zero] at hfuel
    omega
  | succ fuel ih =>
    rw [maxChunkSize_eq] at hfuel
    by_cases h : i < body.length
    · rw [bodyChunksFrom_succ_of_lt body h, List.length_cons,
        @ih (i + maxChunkSize) (by rw [maxChunkSize_eq]; omega), maxChunkSize_eq]
      omega
    · rw [bodyChunksFrom_of_le body (by omega), List.length_nil]
      omega

/-- With a pass for every `maxChunkSize` bytes left, the chunks put together give back the body
from the cursor on. -/
theorem flatten_bodyChunksFrom (hfuel : body.length ≤ i + maxChunkSize * fuel) :
    (bodyChunksFrom body fuel i).flatten = body.drop i := by
  induction fuel generalizing i with
  | zero =>
    rw [bodyChunksFrom_of_le body (by simpa using hfuel)]
    exact (List.drop_eq_nil_of_le (by simpa using hfuel)).symm
  | succ fuel ih =>
    rw [maxChunkSize_eq] at hfuel
    by_cases h : i < body.length
    · rw [bodyChunksFrom_succ_of_lt body h, List.flatten_cons,
        @ih (i + maxChunkSize) (by rw [maxChunkSize_eq]; omega), ← List.drop_drop,
        List.take_append_drop]
    · rw [bodyChunksFrom_of_le body (by omega), List.drop_eq_nil_of_le (by omega)]
      rfl

end Chunks

/-- **The body of the envelope.** Whatever the length `L` of an inscription's body, the
builder's elements after the eight of the header are the body tag `OP_0`, then `⌈L / 520⌉`
chunks of one to 520 bytes each that put together in push order give back the body, then
`OP_ENDIF`. The loop's pass per byte is always enough. -/
theorem inscriptionBuilder_body_chunks (internalPubKey : Bytes) (d : InscriptionData) :
    (inscriptionBuilder internalPubKey d).drop 8 =
        .opcode op0 :: (bodyChunks d.body.toBytes).map .data ++ [.opcode opEndif] ∧
      (bodyChunks d.body.toBytes).length = (d.body.toBytes.length + 519) / 520 ∧
      (∀ c ∈ bodyChunks d.body.toBytes, c ≠ [] ∧ c.length ≤ 520) ∧
      (bodyChunks d.body.toBytes).flatten = d.body.toBytes := by
  have hfuel : d.body.toBytes.length ≤ 0 + maxChunkSize * d.body.toBytes.length := by
    simp only [maxChunkSize_eq]; omega
  exact ⟨rfl, length_bodyChunksFrom _ hfuel, fun c hc => mem_bodyChunksFrom _ hc,
    flatten_bodyChunksFrom _ hfuel⟩

variable {η : Type}

/-- `createInscriptionTxCtxData(network, inscriptionData, privateKeyWif)`. -/
def createInscriptionTxCtxData (L : BitcoinLib η) (network : Network)
    (inscriptionData : InscriptionData) (privateKeyWif : String) :
    Except String InscriptionTxCtxData := do
  let privateKey := L.fromHex (← L.privateKeyFromWIF privateKeyWif network)
  let internalPubKey := (← L.wif2Public privateKeyWif network).drop 1
  let inscriptionScript := L.compile (inscriptionBuilder internalPubKey inscriptionData)
  let payment := L.p2tr internalPubKey inscriptionScript network
  let revealPkScript ← L.toOutputScript inscriptionData.revealAddr network
  pure ⟨privateKey, inscriptionScript, payment.address, payment.output, payment.witness,
    payment.hash, revealPkScript⟩

/-- A context's addresses and scripts are the library's `p2tr` payment for the inscription's
leaf, and its key is the one decoded from the WIF it was built from. -/
theorem createInscriptionTxCtxData_ok {L : BitcoinLib η} {network : Network}
    {d : InscriptionData} {wif : String} {ctx : InscriptionTxCtxData}
    (h : createInscriptionTxCtxData L network d wif = .ok ctx) :
    ∃ hex pub, L.privateKeyFromWIF wif network = .ok hex ∧ L.wif2Public wif network = .ok pub ∧
      ctx.privateKey = L.fromHex hex ∧
      ctx.inscriptionScript = L.compile (inscriptionBuilder (pub.drop 1) d) ∧
      ctx.commitTxAddress = (L.p2tr (pub.drop 1) ctx.inscriptionScript network).address ∧
      ctx.commitTxAddressPkScript = (L.p2tr (pub.drop 1) ctx.inscriptionScript network).output ∧
      ctx.witness = (L.p2tr (pub.drop 1) ctx.inscriptionScript network).witness ∧
      ctx.hash = (L.p2tr (pub.drop 1) ctx.inscriptionScript network).hash ∧
      L.toOutputScript d.revealAddr network = .ok ctx.revealPkScript := by
  unfold createInscriptionTxCtxData at h
  cases hk : L.privateKeyFromWIF wif network <;> simp only [hk] at h
  · cases h
  cases hp : L.wif2Public wif network <;> simp only [hp] at h
  · cases h
  cases hr : L.toOutputScript d.revealAddr network <;> simp only [hr] at h
  · cases h
  cases h
  exact ⟨_, _, rfl, rfl, rfl, rfl, rfl, rfl, rfl, rfl, rfl⟩

/-- When the library's `toOutputScript` inverts the address of a `p2tr` payment, a context's
commit address turns back into its commit script. -/
theorem createInscriptionTxCtxData_commitScript {L : BitcoinLib η} {network : Network}
    (hp2tr : ∀ pk s, L.toOutputScript (L.p2tr pk s network).address network =
      .ok (L.p2tr pk s network).output)
    {d : InscriptionData} {wif : String} {ctx : InscriptionTxCtxData}
    (h : createInscriptionTxCtxData L network d wif = .ok ctx) :
    L.toOutputScript ctx.commitTxAddress network = .ok ctx.commitTxAddressPkScript := by
  obtain ⟨_, _, -, -, -, -, ha, hs, -⟩ := createInscriptionTxCtxData_ok h
  rw [ha, hs]
  exact hp2tr _ _

end ChainInscription
