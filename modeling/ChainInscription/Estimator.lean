import ChainInscription.FundingSigner
import ChainInscription.Reference
import Mathlib.Order.WithBot

/-!
# The fee and change estimator

`estimateFeeAndOutput` prices a candidate transaction whose change value is not yet known. It
sizes a clone carrying a plausible witness (a dry-run `signTx` for a commit, a zero signature in
front of the reveal witness otherwise), charges `feeFor` on that size, and computes the change
left after the fixed outputs. When a reveal's change would fall below the minimum it sizes a
second clone without the change output: if the smaller transaction is affordable the change is
dropped (`-1`), otherwise the funds are short (`-Infinity`). `-Infinity` is `⊥ : WithBot ℤ`.

The two sizing passes of the source are the same code with different error messages;
`sizedFee` is that code, with the messages as a parameter. The dry-run `signTx` of a commit
draws randomness for a Taproot input, `auxRand`; a reveal's pass signs nothing and is given
`noDraws`.
-/

namespace ChainInscription

variable {η : Type} (L : BitcoinLib η) (network : Network)

/-- `Buffer.alloc(64)`: the signature placeholder of a reveal clone. -/
def emptySignature : Bytes := List.replicate 64 0

/-- `try { body } catch (e) { throw new Error(prefix + e.message) }`. -/
def rethrowWith {α : Type} (pfx : String) (body : Except String α) : Except String α :=
  body.mapError (pfx ++ ·)

/-- The error texts of one sizing pass. -/
structure SizingMessages where
  noInput : String
  noContext : String
  signFailed : String
  vsizeFailed : String

/-- The texts of the first pass. -/
def withChangeMessages : SizingMessages :=
  ⟨"费用估算内部错误：尝试估算一个没有输入的 Reveal 交易？",
    "费用估算内部错误：估算 Reveal 交易费用需要提供 inscriptionCtx",
    "费用估算错误：模拟签名失败: ", "费用估算错误：计算 VSize 失败: "⟩

/-- The texts of the pass without the change output. -/
def withoutChangeMessages : SizingMessages :=
  ⟨"费用估算内部错误：尝试估算一个没有输入且无找零的 Reveal 交易？",
    "费用估算内部错误：估算 Reveal 交易费用需要提供 inscriptionCtx (无找零情况)",
    "费用估算错误：重新模拟签名 (无找零) 失败: ", "费用估算错误：重新计算 VSize (无找零) 失败: "⟩

/-- The draws of a pricing that signs nothing. -/
def noDraws : ℕ → Bytes := fun _ => []

/-- The plausible witness of a clone: `signTx` for a commit, and for a reveal the context's
witness behind a zero signature on the first input. -/
def simulateSigning (msgs : SizingMessages) (tx : Transaction η) (inputs : List PrevOutput)
    (isCommitTx : Bool) (inscriptionCtx : Option InscriptionTxCtxData) (auxRand : ℕ → Bytes) :
    Except String (Transaction η) :=
  if isCommitTx then signTx L network tx inputs auxRand
  else match inscriptionCtx with
    | some ctx =>
      if tx.ins.length > 0 then pure (tx.setWitness 0 (emptySignature :: ctx.witness))
      else throw msgs.noInput
    | none => throw msgs.noContext

/-- One sizing pass: dry-run sign a clone, size it with `countAdjustedVsize`, price it. -/
def sizedFee (msgs : SizingMessages) (tx : Transaction η) (inputs : List PrevOutput)
    (feeRate : FeeRate) (isCommitTx : Bool) (inscriptionCtx : Option InscriptionTxCtxData)
    (auxRand : ℕ → Bytes) : Except String ℤ := do
  let txForEstimate ← rethrowWith msgs.signFailed
    (simulateSigning L network msgs tx inputs isCommitTx inscriptionCtx auxRand)
  let vsize ← rethrowWith msgs.vsizeFailed
    (L.countAdjustedVsize txForEstimate (inputs.map (·.address)) network)
  pure (feeFor vsize feeRate)

/-- `estimateFeeAndOutput(tx, inputs, feeRate, totalInputValue, fixedOutputValue,
minChangeValue, isCommitTx, inscriptionCtx)`, returning `(fee, changeAmount)`; a dry-run
signature draws `auxRand`. The second pass signs only for a commit, which never reaches it. -/
def estimateFeeAndOutput (tx : Transaction η) (inputs : List PrevOutput) (feeRate : FeeRate)
    (totalInputValue fixedOutputValue minChangeValue : ℤ) (isCommitTx : Bool)
    (inscriptionCtx : Option InscriptionTxCtxData) (auxRand : ℕ → Bytes) :
    Except String (ℤ × WithBot ℤ) := do
  let fee ← sizedFee L network withChangeMessages tx inputs feeRate isCommitTx inscriptionCtx
    auxRand
  let changeAmount := totalInputValue - fixedOutputValue - fee
  let changeOutputIndex : ℤ := if isCommitTx then -1 else 1
  if changeOutputIndex ≠ -1 ∧ (tx.outs.length : ℤ) > changeOutputIndex then
    if ¬ changeAmount ≥ minChangeValue then do
      let txWithoutChange ←
        if (tx.outs.length : ℤ) > changeOutputIndex then
          pure (tx.spliceOutput changeOutputIndex.toNat)
        else throw s!"费用估算内部错误：期望在索引 {changeOutputIndex} 找到找零输出，但输出数量为 {tx.outs.length}"
      let feeWithoutChange ← sizedFee L network withoutChangeMessages txWithoutChange inputs
        feeRate isCommitTx inscriptionCtx auxRand
      if totalInputValue ≥ fixedOutputValue + feeWithoutChange then
        pure (feeWithoutChange, ((-1 : ℤ) : WithBot ℤ))
      else pure (fee, ⊥)
    else pure (fee, (changeAmount : WithBot ℤ))
  else pure (fee, (changeAmount : WithBot ℤ))

end ChainInscription

namespace ChainInscription

variable {η : Type} (L : BitcoinLib η) (network : Network)

/-! ## What a sizing pass computes -/

/-- The clone a sizing pass prices, where the source gets one. -/
def plausibleClone (tx : Transaction η) (inputs : List PrevOutput) (isCommitTx : Bool)
    (inscriptionCtx : Option InscriptionTxCtxData) (auxRand : ℕ → Bytes) :
    Option (Transaction η) :=
  if isCommitTx then (signTx L network tx inputs auxRand).toOption
  else match inscriptionCtx with
    | some ctx =>
      if tx.ins.length > 0 then some (tx.setWitness 0 (emptySignature :: ctx.witness)) else none
    | none => none

/-- `fee(S)`: the fee the estimator charges for a candidate `S`, `feeFor` the size of `S`'s
plausible clone. -/
def ChargedFee (feeRate : FeeRate) (isCommitTx : Bool)
    (inscriptionCtx : Option InscriptionTxCtxData) (inputs : List PrevOutput)
    (auxRand : ℕ → Bytes) (S : Transaction η) (fee : ℤ) : Prop :=
  ∃ clone vsize, plausibleClone L network S inputs isCommitTx inscriptionCtx auxRand = some clone ∧
    L.countAdjustedVsize clone (inputs.map (·.address)) network = .ok vsize ∧
    fee = feeFor vsize feeRate

variable {L network}

theorem rethrowWith_eq_ok {α : Type} {pfx : String} {x : Except String α} {a : α} :
    rethrowWith pfx x = .ok a ↔ x = .ok a := by
  cases x <;> simp [rethrowWith, Except.mapError]

theorem simulateSigning_eq_ok {msgs : SizingMessages} {tx S : Transaction η}
    {inputs : List PrevOutput} {c : Bool} {x : Option InscriptionTxCtxData} {aux : ℕ → Bytes} :
    simulateSigning L network msgs tx inputs c x aux = .ok S ↔
      plausibleClone L network tx inputs c x aux = some S := by
  unfold simulateSigning plausibleClone
  split
  · cases signTx L network tx inputs aux <;> simp [Except.toOption]
  · split
    · split <;> simp
    · simp

/-- A sizing pass succeeds with the charged fee, whatever its messages. -/
theorem sizedFee_eq_ok {msgs : SizingMessages} {tx : Transaction η} {inputs : List PrevOutput}
    {r : FeeRate} {c : Bool} {x : Option InscriptionTxCtxData} {aux : ℕ → Bytes} {fee : ℤ} :
    sizedFee L network msgs tx inputs r c x aux = .ok fee ↔
      ChargedFee L network r c x inputs aux tx fee := by
  simp only [sizedFee, Except.bind_eq_ok, rethrowWith_eq_ok, simulateSigning_eq_ok,
    Except.pure_eq_ok, ChargedFee]
  constructor
  · rintro ⟨S, hS, v, hv, rfl⟩; exact ⟨S, v, hS, hv, rfl⟩
  · rintro ⟨S, v, hS, hv, rfl⟩; exact ⟨S, hS, v, hv, rfl⟩

/-- A candidate has one charged fee. -/
theorem ChargedFee.unique {r : FeeRate} {c : Bool} {x : Option InscriptionTxCtxData}
    {inputs : List PrevOutput} {aux : ℕ → Bytes} {S : Transaction η} {f f' : ℤ}
    (h : ChargedFee L network r c x inputs aux S f)
    (h' : ChargedFee L network r c x inputs aux S f') :
    f = f' := by
  obtain ⟨S₁, v₁, h₁, hv₁, rfl⟩ := h
  obtain ⟨S₂, v₂, h₂, hv₂, rfl⟩ := h'
  rw [h₁, Option.some_inj] at h₂
  subst h₂
  rw [hv₁, Except.ok.injEq] at hv₂
  rw [hv₂]

/-- Everything `estimateFeeAndOutput` can return: the charged fee `f` of the candidate and the
change it leaves, unless a reveal's change falls short of the minimum; then the fee `f'` of the
candidate without its change output decides between dropping the change and running short. -/
theorem estimateFeeAndOutput_eq_ok {tx : Transaction η} {inputs : List PrevOutput} {r : FeeRate}
    {I F M : ℤ} {c : Bool} {x : Option InscriptionTxCtxData} {aux : ℕ → Bytes} {fee : ℤ}
    {change : WithBot ℤ} (h : estimateFeeAndOutput L network tx inputs r I F M c x aux = .ok (fee, change)) :
    ∃ f, ChargedFee L network r c x inputs aux tx f ∧
      ((c = true ∨ tx.outs.length ≤ 1 ∨ M ≤ I - F - f) ∧ fee = f ∧ change = ↑(I - F - f) ∨
        c = false ∧ 1 < tx.outs.length ∧ I - F - f < M ∧
          ∃ f', ChargedFee L network r c x inputs aux (tx.spliceOutput 1) f' ∧
            (F + f' ≤ I ∧ fee = f' ∧ change = ((-1 : ℤ) : WithBot ℤ) ∨
              I < F + f' ∧ fee = f ∧ change = ⊥)) := by
  unfold estimateFeeAndOutput at h
  obtain ⟨f, hf, h⟩ := Except.bind_eq_ok.1 h
  refine ⟨f, sizedFee_eq_ok.1 hf, ?_⟩
  cases c
  · have hidx : ((1 : ℤ)).toNat = 1 := rfl
    simp only [Bool.false_eq_true, if_false, ne_eq, show (1 : ℤ) ≠ -1 by decide, not_false_eq_true,
      true_and, gt_iff_lt, Nat.one_lt_cast, hidx, ge_iff_le, ite_not] at h
    by_cases hlen : 1 < tx.outs.length
    · by_cases hM : M ≤ I - F - f
      · simp only [hlen, hM, if_true, Except.pure_eq_ok, Prod.mk.injEq] at h
        exact .inl ⟨.inr (.inr hM), h.1.symm, h.2.symm⟩
      · simp only [hlen, hM, if_true, if_false, pure_bind] at h
        obtain ⟨f', hf', h⟩ := Except.bind_eq_ok.1 h
        refine .inr ⟨rfl, hlen, lt_of_not_le hM, f', sizedFee_eq_ok.1 hf', ?_⟩
        by_cases hI : F + f' ≤ I
        · simp only [hI, if_true, Except.pure_eq_ok, Prod.mk.injEq] at h
          exact .inl ⟨hI, h.1.symm, h.2.symm⟩
        · simp only [hI, if_false, Except.pure_eq_ok, Prod.mk.injEq] at h
          exact .inr ⟨lt_of_not_le hI, h.1.symm, h.2.symm⟩
    · simp only [hlen, if_false, Except.pure_eq_ok, Prod.mk.injEq] at h
      exact .inl ⟨.inr (.inl (le_of_not_lt hlen)), h.1.symm, h.2.symm⟩
  · simp only [if_true, ne_eq, not_true_eq_false, false_and, if_false, Except.pure_eq_ok,
      Prod.mk.injEq] at h
    exact .inl ⟨.inl rfl, h.1.symm, h.2.symm⟩

/-- The converse for the first outcome: a commit, a candidate without a change slot, and a
reveal whose change clears the minimum get the charged fee and the change left over. -/
theorem estimateFeeAndOutput_of_charged {tx : Transaction η} {inputs : List PrevOutput}
    {r : FeeRate} {I F M : ℤ} {c : Bool} {x : Option InscriptionTxCtxData} {aux : ℕ → Bytes}
    {f : ℤ} (hf : ChargedFee L network r c x inputs aux tx f)
    (hc : c = true ∨ tx.outs.length ≤ 1 ∨ M ≤ I - F - f) :
    estimateFeeAndOutput L network tx inputs r I F M c x aux = .ok (f, ↑(I - F - f)) := by
  unfold estimateFeeAndOutput
  rw [sizedFee_eq_ok.2 hf, Except.ok_bind]
  rcases hc with rfl | hc
  · simp
  · cases c
    · have hidx : ((1 : ℤ)).toNat = 1 := rfl
      rcases hc with hle | hM
      · simp [show ¬ (1 : ℤ) < tx.outs.length by omega]
      · simp [hidx, hM]
    · simp

/-- The converse for the second outcome: a reveal whose change falls short of the minimum, and
whose candidate without the change output is affordable, drops the change. -/
theorem estimateFeeAndOutput_of_drop {tx : Transaction η} {inputs : List PrevOutput}
    {r : FeeRate} {I F M : ℤ} {x : Option InscriptionTxCtxData} {aux : ℕ → Bytes} {f f' : ℤ}
    (hf : ChargedFee L network r false x inputs aux tx f) (hlen : 1 < tx.outs.length)
    (hM : I - F - f < M) (hf' : ChargedFee L network r false x inputs aux (tx.spliceOutput 1) f')
    (hI : F + f' ≤ I) :
    estimateFeeAndOutput L network tx inputs r I F M false x aux =
      .ok (f', ((-1 : ℤ) : WithBot ℤ)) := by
  have hidx : ((1 : ℤ)).toNat = 1 := rfl
  unfold estimateFeeAndOutput
  simp [sizedFee_eq_ok.2 hf, sizedFee_eq_ok.2 hf', hidx, hlen, hM, hI]

/-! ## The estimator's contract -/

section Contract
variable (L network)
variable (tx : Transaction η) (inputs : List PrevOutput) (aux : ℕ → Bytes) (r : FeeRate)
  (I F M : ℤ) (x : Option InscriptionTxCtxData)

/-- Outcome (a) of pricing a reveal: the change is kept. -/
def KeepsChange (fee : ℤ) (change : WithBot ℤ) : Prop :=
  ChargedFee L network r false x inputs aux tx fee ∧ change = ↑(I - F - fee) ∧ M ≤ I - F - fee

/-- Outcome (b): the change falls short of the minimum and is dropped; the transaction without
it is affordable. -/
def DropsChange (fee : ℤ) (change : WithBot ℤ) : Prop :=
  change = ((-1 : ℤ) : WithBot ℤ) ∧
    ChargedFee L network r false x inputs aux (tx.spliceOutput 1) fee ∧
    (∃ f, ChargedFee L network r false x inputs aux tx f ∧ I - F - f < M) ∧ 0 ≤ I - F - fee

/-- Outcome (c): the funds are short even without the change output. -/
def ShortOfFunds (fee : ℤ) (change : WithBot ℤ) : Prop :=
  change = ⊥ ∧ ChargedFee L network r false x inputs aux tx fee ∧
    ∃ f, ChargedFee L network r false x inputs aux (tx.spliceOutput 1) f ∧ I < F + f

/-- What `estimateFeeAndOutput` promises about the `(fee, change)` it returns: the charged fee
and the change left over when there is no change slot, and for a reveal with a change slot
exactly one of the three outcomes. -/
def EstimateContract (c : Bool) (fee : ℤ) (change : WithBot ℤ) : Prop :=
  ((c = true ∨ tx.outs.length ≤ 1) →
    ChargedFee L network r c x inputs aux tx fee ∧ change = ↑(I - F - fee)) ∧
  (c = false → 1 < tx.outs.length →
    (KeepsChange L network tx inputs aux r I F M x fee change ∨
      DropsChange L network tx inputs aux r I F M x fee change ∨
      ShortOfFunds L network tx inputs aux r I F x fee change) ∧
    ¬ (KeepsChange L network tx inputs aux r I F M x fee change ∧
      DropsChange L network tx inputs aux r I F M x fee change) ∧
    ¬ (KeepsChange L network tx inputs aux r I F M x fee change ∧
      ShortOfFunds L network tx inputs aux r I F x fee change) ∧
    ¬ (DropsChange L network tx inputs aux r I F M x fee change ∧
      ShortOfFunds L network tx inputs aux r I F x fee change))

end Contract

theorem not_keepsChange_and_dropsChange {tx : Transaction η} {inputs : List PrevOutput}
    {aux : ℕ → Bytes} {r : FeeRate} {I F M : ℤ} {x : Option InscriptionTxCtxData} {fee : ℤ} {change : WithBot ℤ} :
    ¬ (KeepsChange L network tx inputs aux r I F M x fee change ∧
      DropsChange L network tx inputs aux r I F M x fee change) := by
  rintro ⟨⟨hk, -, hkM⟩, -, -, ⟨g, hg, hgM⟩, -⟩
  rw [hk.unique hg] at hkM
  omega

theorem not_shortOfFunds_of_coe {tx : Transaction η} {inputs : List PrevOutput}
    {aux : ℕ → Bytes} {r : FeeRate} {I F : ℤ} {x : Option InscriptionTxCtxData} {fee v : ℤ} :
    ¬ ShortOfFunds L network tx inputs aux r I F x fee (v : WithBot ℤ) :=
  fun h => WithBot.coe_ne_bot h.1

/-- **The estimator meets its contract.** -/
theorem estimateFeeAndOutput_contract {tx : Transaction η} {inputs : List PrevOutput}
    {aux : ℕ → Bytes} {r : FeeRate} {I F M : ℤ} {c : Bool} {x : Option InscriptionTxCtxData}
    {fee : ℤ} {change : WithBot ℤ}
    (h : estimateFeeAndOutput L network tx inputs r I F M c x aux = .ok (fee, change)) :
    EstimateContract L network tx inputs aux r I F M x c fee change := by
  have hDS : ¬ (DropsChange L network tx inputs aux r I F M x fee change ∧
      ShortOfFunds L network tx inputs aux r I F x fee change) := by
    rintro ⟨⟨rfl, -⟩, hs⟩
    exact not_shortOfFunds_of_coe hs
  obtain ⟨f, hf, ⟨hcase, rfl, rfl⟩ | ⟨rfl, hlen, hM, f', hf', hout⟩⟩ := estimateFeeAndOutput_eq_ok h
  · refine ⟨fun _ => ⟨hf, rfl⟩, fun hc hlen => ⟨.inl ⟨hc ▸ hf, rfl, ?_⟩,
      not_keepsChange_and_dropsChange, fun h => not_shortOfFunds_of_coe h.2, hDS⟩⟩
    rcases hcase with rfl | hle | hM
    · cases hc
    · omega
    · exact hM
  · refine ⟨fun h => by simp at h; omega, fun _ _ => ⟨?_, not_keepsChange_and_dropsChange,
      ?_, hDS⟩⟩
    · rcases hout with ⟨hI, rfl, rfl⟩ | ⟨hI, rfl, rfl⟩
      · exact .inr (.inl ⟨rfl, hf', ⟨f, hf, hM⟩, by omega⟩)
      · exact .inr (.inr ⟨rfl, hf, f', hf', hI⟩)
    · rintro ⟨⟨-, hc, -⟩, hs, -⟩
      rw [hs] at hc
      exact WithBot.bot_ne_coe hc

/-- The contract at a reveal whose change falls below the minimum: the reference library prices
it at 180 with change and 156 without, and 800 satoshis cover 546 and 156. -/
theorem estimateFeeAndOutput_contract_at_drop :
    EstimateContract refLib .testnet
      (((Transaction.empty.setVersion 2).addInput (.txId "aa") 0 defaultSequenceNum).addOutput
        [7] 546 |>.addOutput [8] 0)
      [⟨"aa", 0, 800, "p5", ""⟩] noDraws (FeeRate.ofNat 2 (by decide)) 800 546 546
      (some ⟨[], [], "p5", refBytes "p5", [[1, 2, 3], [0xc0, 2]], [], [7]⟩) false 156
      ((-1 : ℤ) : WithBot ℤ) :=
  estimateFeeAndOutput_contract (by rfl)

end ChainInscription
