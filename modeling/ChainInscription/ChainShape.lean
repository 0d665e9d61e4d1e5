import ChainInscription.Assembler

/-!
# What every assembled chain looks like

`RevealsBuilt` and `ChainBuilt` describe runs of the reveal loop and of `buildSingleUtxoChain`.
This module reads them position by position: reveal `t` of a chain is one `RevealStep` from
transaction `t - 1`, and each fact the builder promises about a single transaction is a short
lemma about `RevealStep`: the outpoint it spends, what it pays and to whom, the fee it was charged
against the fee it actually pays, and that the clone the estimator sized has the shape the reveal
takes once signed.
-/

namespace ChainInscription

variable {η : Type} (L : BitcoinLib η) (network : Network) (utxo : PrevOutput)
  (first : InscriptionTxCtxData) (p : ChainParams)

/-- One reveal: built on output `k` of `pred`, which holds `w`, for the inscription `x` with the
inscriptions `rest` after it in the chain, and charged `f`. It keeps a change of at least the
minimum, or, with no inscription after it, drops the change it cannot keep. -/
inductive RevealStep (pred : Transaction η) (k : ℕ) (w : ℤ) (x : InscriptionTxCtxData)
    (rest : List InscriptionTxCtxData) : ℤ → Transaction η → Prop
  | keep {cs : Bytes} {f : ℤ}
      (hcs : L.toOutputScript (changeAddressFor p.finalChangeAddress rest) network = .ok cs)
      (hfee : ChargedFee L network p.revealFeeRate false (some x) [revealInput utxo first w] noDraws
        (newRevealTx L pred k x p.revealOutValue cs) f)
      (hmin : (p.minChangeValue : ℤ) ≤ w - p.revealOutValue - f) :
      RevealStep pred k w x rest f
        ((newRevealTx L pred k x p.revealOutValue cs).setOutputValue 1 (w - p.revealOutValue - f))
  | drop {cs : Bytes} {f f' : ℤ} (hrest : rest = [])
      (hcs : L.toOutputScript p.finalChangeAddress network = .ok cs)
      (hfee : ChargedFee L network p.revealFeeRate false (some x) [revealInput utxo first w] noDraws
        (newRevealTx L pred k x p.revealOutValue cs).popOutput f)
      (hf : ChargedFee L network p.revealFeeRate false (some x) [revealInput utxo first w] noDraws
        (newRevealTx L pred k x p.revealOutValue cs) f')
      (hshort : w - p.revealOutValue - f' < p.minChangeValue)
      (hpaid : 0 ≤ w - p.revealOutValue - f) :
      RevealStep pred k w x rest f (newRevealTx L pred k x p.revealOutValue cs).popOutput

variable {L network utxo first p}

@[simp] theorem newRevealTx_setOutputValue_outs (prev : Transaction η) (k : ℕ)
    (x : InscriptionTxCtxData) (v : ℕ) (cs : Bytes) (c : ℤ) :
    ((newRevealTx L prev k x v cs).setOutputValue 1 c).outs = [⟨x.revealPkScript, v⟩, ⟨cs, c⟩] :=
  rfl
@[simp] theorem newRevealTx_popOutput_outs (prev : Transaction η) (k : ℕ)
    (x : InscriptionTxCtxData) (v : ℕ) (cs : Bytes) :
    (newRevealTx L prev k x v cs).popOutput.outs = [⟨x.revealPkScript, v⟩] := rfl
@[simp] theorem initialCommitTx_ins (first : InscriptionTxCtxData) :
    (initialCommitTx L utxo first).ins =
      [⟨L.txIdHash utxo.txId, utxo.vOut, [], defaultSequenceNum, []⟩] := rfl
@[simp] theorem initialCommitTx_setOutputValue_outs (first : InscriptionTxCtxData) (v : ℤ) :
    ((initialCommitTx L utxo first).setOutputValue 0 v).outs =
      [⟨first.commitTxAddressPkScript, v⟩] := rfl

@[simp] theorem outpoints_initialCommitTx_setOutputValue (first : InscriptionTxCtxData) (v : ℤ) :
    ((initialCommitTx L utxo first).setOutputValue 0 v).outpoints =
      [(L.txIdHash utxo.txId, utxo.vOut)] := rfl

/-- The signature placeholder and a real signature give a clone of the same shape. -/
theorem shape_setWitness_emptySignature (S : Transaction η) (sig : SchnorrSig)
    (w : List Bytes) :
    (S.setWitness 0 (emptySignature :: w)).shape = (S.setWitness 0 (sig.bytes :: w)).shape :=
  Transaction.shape_setWitness_congr _ _ (by simp [emptySignature, sig.length_eq])

/-! ## One reveal -/

namespace RevealStep
variable {pred : Transaction η} {k : ℕ} {w : ℤ} {x : InscriptionTxCtxData}
  {rest : List InscriptionTxCtxData} {f : ℤ} {tx : Transaction η}

/-- A reveal has one input, which spends output `k` of its predecessor. -/
theorem outpoints (h : RevealStep L network utxo first p pred k w x rest f tx) :
    tx.outpoints = [(L.getHash pred, k)] := by
  cases h <;> rfl

theorem ins_eq (h : RevealStep L network utxo first p pred k w x rest f tx) :
    tx.ins = [⟨L.getHash pred, k, [], defaultSequenceNum, []⟩] := by
  cases h <;> rfl

/-- A reveal pays `revealOutValue` to its inscription's recipient, first. -/
theorem outs_head (h : RevealStep L network utxo first p pred k w x rest f tx) :
    tx.outs.head? = some ⟨x.revealPkScript, p.revealOutValue⟩ := by
  cases h <;> rfl

/-- A reveal keeps a change of at least the minimum, paid to the next inscription's commit
address or, last in the chain, to the final change address; only the last one may drop it. -/
theorem outs_eq (h : RevealStep L network utxo first p pred k w x rest f tx) :
    (∃ cs c, L.toOutputScript (changeAddressFor p.finalChangeAddress rest) network = .ok cs ∧
        (p.minChangeValue : ℤ) ≤ c ∧
        tx.outs = [⟨x.revealPkScript, p.revealOutValue⟩, ⟨cs, c⟩]) ∨
      (rest = [] ∧ tx.outs = [⟨x.revealPkScript, p.revealOutValue⟩]) := by
  cases h with
  | keep hcs _ hmin => exact .inl ⟨_, _, hcs, hmin, rfl⟩
  | drop hrest => exact .inr ⟨hrest, rfl⟩

/-- What a reveal pays in fees, the value it spends less its outputs: the fee it was charged
when it keeps its change, at least that when it drops it. -/
theorem paid (h : RevealStep L network utxo first p pred k w x rest f tx) :
    w - tx.outValue = f ∨ (rest = [] ∧ tx.outs.length = 1 ∧ f ≤ w - tx.outValue) := by
  cases h with
  | keep => left; simp [Transaction.outValue]; ring
  | drop hrest _ _ _ _ hpaid =>
    right; refine ⟨hrest, rfl, ?_⟩
    simp only [Transaction.outValue, newRevealTx_popOutput_outs, List.map_cons, List.map_nil,
      List.sum_cons, List.sum_nil, add_zero]
    omega

/-- The estimator priced a reveal at the size of a clone of it: its change value back at `0`
and 64 zero bytes in place of the signature in front of the inscription's witness. -/
theorem sized (h : RevealStep L network utxo first p pred k w x rest f tx) :
    ∃ vsize, L.countAdjustedVsize ((tx.setOutputValue 1 0).setWitness 0
        (emptySignature :: x.witness)) [first.commitTxAddress] network = .ok vsize ∧
      f = feeFor vsize p.revealFeeRate := by
  have key : ∀ (S : Transaction η) (f : ℤ), S.ins.length = 1 →
      ChargedFee L network p.revealFeeRate false (some x) [revealInput utxo first w] noDraws S f →
      ∃ vsize, L.countAdjustedVsize (S.setWitness 0 (emptySignature :: x.witness))
        [first.commitTxAddress] network = .ok vsize ∧ f = feeFor vsize p.revealFeeRate := by
    rintro S f hS ⟨clone, vsize, hc, hv, rfl⟩
    simp only [plausibleClone, Bool.false_eq_true, if_false, hS, zero_lt_one, if_true,
      Option.some.injEq] at hc
    subst hc
    exact ⟨vsize, hv, rfl⟩
  cases h with
  | keep _ hfee => exact key _ _ rfl hfee
  | drop _ _ hfee => exact key _ _ rfl hfee

end RevealStep

/-- The estimator's clone of a reveal and the signed reveal have the same shape. -/
theorem shape_clone_eq (tx : Transaction η) (sig : SchnorrSig) (w : List Bytes) :
    ((tx.setOutputValue 1 0).setWitness 0 (emptySignature :: w)).shape =
      (tx.setWitness 0 (sig.bytes :: w)).shape := by
  rw [show (tx.setOutputValue 1 0).setWitness 0 (emptySignature :: w) =
      (tx.setWitness 0 (emptySignature :: w)).setOutputValue 1 0 from rfl,
    Transaction.shape_setOutputValue, shape_setWitness_emptySignature]


/-! ## Reveal `j` of a run -/

/-- Reveal `j` of a run is one step from the transaction before it, on output `k` of `prev` for
the first and on the change output `1` of the reveal before it after that; the change output it
spends pays to the commit script of its inscription's address. -/
theorem RevealsBuilt.step_getElem {prev : Transaction η} {v : ℤ} {k : ℕ}
    {xs : List InscriptionTxCtxData} {txs : List (Transaction η)} {fees : List ℤ}
    (h : RevealsBuilt L network utxo first p prev v k xs txs fees) {j : ℕ} {tx : Transaction η}
    (ht : txs[j]? = some tx) :
    ∃ pred w x f, (prev :: txs)[j]? = some pred ∧ xs[j]? = some x ∧ fees[j]? = some f ∧
      (j = 0 → pred = prev ∧ w = v) ∧
      (0 < j → ∃ cs, L.toOutputScript x.commitTxAddress network = .ok cs ∧
        pred.outs[1]? = some ⟨cs, w⟩) ∧
      RevealStep L network utxo first p pred (if j = 0 then k else 1) w x (xs.drop (j + 1)) f
        tx := by
  induction h generalizing j with
  | nil => simp at ht
  | @keep prev v k x rest cs fee txs fees hcs hfee hmin tail ih =>
    cases j with
    | zero =>
      simp only [List.getElem?_cons_zero, Option.some.injEq] at ht
      subst ht
      exact ⟨prev, v, x, fee, rfl, by simp, by simp, fun _ => ⟨rfl, rfl⟩, by omega,
        by simpa using RevealStep.keep hcs hfee hmin⟩
    | succ j =>
      obtain ⟨pred, w, x', f, hp, hx, hf, h0, h1, hs⟩ := ih (by simpa using ht)
      refine ⟨pred, w, x', f, by simpa using hp, by simpa using hx, by simpa using hf,
        by simp, fun _ => ?_, by simpa using hs⟩
      rcases Nat.eq_zero_or_pos j with rfl | hj
      · obtain ⟨rfl, rfl⟩ := h0 rfl
        obtain _ | ⟨y, rest'⟩ := rest
        · simp at hx
        simp only [List.getElem?_cons_zero, Option.some.injEq] at hx
        subst hx
        exact ⟨cs, hcs, rfl⟩
      · exact h1 hj
  | @drop prev v k x cs fee f hcs hfee hf hshort hpaid =>
    cases j with
    | zero =>
      simp only [List.getElem?_cons_zero, Option.some.injEq] at ht
      subst ht
      exact ⟨prev, v, x, fee, rfl, by simp, by simp, fun _ => ⟨rfl, rfl⟩, by omega,
        .drop rfl hcs hfee hf hshort hpaid⟩
    | succ j => simp at ht

/-- Read in order, the reveals of a run pay their first outputs to the recipients of its
inscriptions, in order, `revealOutValue` each. -/
theorem RevealsBuilt.map_outs_head {prev : Transaction η} {v : ℤ} {k : ℕ}
    {xs : List InscriptionTxCtxData} {txs : List (Transaction η)} {fees : List ℤ}
    (h : RevealsBuilt L network utxo first p prev v k xs txs fees) :
    txs.map (·.outs.head?) = xs.map fun x => some ⟨x.revealPkScript, p.revealOutValue⟩ := by
  induction h with
  | nil => rfl
  | keep _ _ _ _ ih => simp [ih]
  | drop => rfl

/-! ## A chain -/

section Chain
variable {aux : ℕ → Bytes} {xs : List InscriptionTxCtxData} {chain : List (Transaction η)}
  {fees : List ℤ}

theorem ChainBuilt.length_eq (h : ChainBuilt L network utxo p aux xs chain fees) :
    chain.length = xs.length + 1 ∧ fees.length = xs.length + 1 := by
  cases h with
  | mk _ _ reveals => simp [reveals.length_eq.1, reveals.length_eq.2]

theorem ChainBuilt.tail_map_outs_head (h : ChainBuilt L network utxo p aux xs chain fees) :
    chain.tail.map (·.outs.head?) = xs.map fun x => some ⟨x.revealPkScript, p.revealOutValue⟩ := by
  cases h with
  | mk _ _ reveals => exact reveals.map_outs_head

/-- A chain's commit spends the funding outpoint and pays all but its fee, which the funding
output covers, to the first inscription's commit script. -/
theorem ChainBuilt.commit_getElem (h : ChainBuilt L network utxo p aux xs chain fees)
    {commit : Transaction η} (hc : chain[0]? = some commit) :
    ∃ x fee, xs[0]? = some x ∧ fees[0]? = some fee ∧
      ChargedFee L network p.commitFeeRate true none [utxo] aux (initialCommitTx L utxo x) fee ∧
      0 ≤ (utxo.amount : ℤ) - fee ∧
      commit = (initialCommitTx L utxo x).setOutputValue 0 (utxo.amount - fee) := by
  cases h with
  | mk hfee hpaid _ =>
    simp only [List.getElem?_cons_zero, Option.some.injEq] at hc
    exact ⟨_, _, by simp, by simp, hfee, hpaid, hc.symm⟩

/-- Transaction `t + 1` of a chain is a reveal of inscription `t` of the chain, built on
transaction `t`: on output `0` of the commit, on the change output `1` of a reveal. The output
it spends pays to the inscription's commit script, or, after a reveal, to the script of its
commit address. -/
theorem ChainBuilt.step_getElem {first : InscriptionTxCtxData} {rest : List InscriptionTxCtxData}
    (h : ChainBuilt L network utxo p aux (first :: rest) chain fees) {t : ℕ} {tx : Transaction η}
    (ht : chain[t + 1]? = some tx) :
    ∃ pred s w x f, chain[t]? = some pred ∧ (first :: rest)[t]? = some x ∧
      fees[t + 1]? = some f ∧ pred.outs[if t = 0 then 0 else 1]? = some ⟨s, w⟩ ∧
      (t = 0 → s = x.commitTxAddressPkScript) ∧
      (0 < t → L.toOutputScript x.commitTxAddress network = .ok s) ∧
      RevealStep L network utxo first p pred (if t = 0 then 0 else 1) w x
        ((first :: rest).drop (t + 1)) f tx := by
  cases h with
  | mk hfee hpaid reveals =>
    obtain ⟨pred, w, x, f, hp, hx, hf, h0, h1, hs⟩ := reveals.step_getElem (by simpa using ht)
    rcases Nat.eq_zero_or_pos t with rfl | ht0
    · obtain ⟨rfl, rfl⟩ := h0 rfl
      simp only [List.getElem?_cons_zero, Option.some.injEq] at hx
      subst hx
      exact ⟨_, _, _, _, f, by simp, by simp, by simpa using hf, by simp, fun _ => rfl,
        by omega, hs⟩
    · have ht0' : t ≠ 0 := Nat.pos_iff_ne_zero.1 ht0
      obtain ⟨cs, hcs, ho⟩ := h1 ht0
      simp only [ht0', if_false] at hs
      exact ⟨pred, cs, w, x, f, hp, hx, by simpa using hf, by simpa [ht0'] using ho,
        by omega, fun _ => hcs, by simpa [ht0'] using hs⟩

end Chain

end ChainInscription
