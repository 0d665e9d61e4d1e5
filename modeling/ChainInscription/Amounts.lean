import ChainInscription.Run

/-!
# Raising the funding amounts, relaxing the settings

A caller that selects funding outputs by value expects a request that succeeds to keep
succeeding when an output is worth more. This module compares two runs of the tool on the same
request, the second with every funding amount raised or kept, `PrevOutput.Raised`.

The amounts reach the builder only through the fees it charges and the change it passes on.
The fees are sizes times rates, so the comparison needs a library that sizes a transaction by
its `frame`, `FrameSized`: the frame sets aside output values and the ids of spent
transactions, which for a reveal are hashes over the amounts before it. Even then one size
depends on an amount: the estimator sizes a commit after a dry-run `signTx`, and a segwit v0
signature signs the funding amount, so its length, which the frame keeps, may change with it.
`AmountFreeSignature` rules that out; it holds of P2PKH and Taproot funding outputs whatever the
library.

Under these two premises every fee of the second run is the fee of the first, every change is
at least as large, and every check the first run passed is passed again: a reveal whose change
the first run kept keeps it, and the last reveal keeps or drops its change. The transactions of
the two runs are related by `Transaction.Widens`, which is all the signer reads of them.

Without the signature premise success is not upward-closed: the last section funds one
inscription from a native segwit output on `refDerLib`, whose DER signatures grow a byte with the
signed hash, and the run on 884 satoshis succeeds where the run on 885 fails.

The same comparison covers a second run under relaxed settings, `ChainParams.Relaxes`: fee
rates, a reveal output value and a minimum change lowered or kept. Its fees are then at most the
first run's and its changes at least as large. With the funding amounts unchanged the commit's
dry-run signature signs the same amount in both runs, so only the frame premise is needed.
-/

namespace ChainInscription

variable {η : Type}

variable (L : BitcoinLib η) (network : Network) in
/-- The library sizes a transaction by its frame alone. -/
def FrameSized : Prop :=
  ∀ (tx tx' : Transaction η) (addrs : List String), tx.frame = tx'.frame →
    L.countAdjustedVsize tx addrs network = L.countAdjustedVsize tx' addrs network

variable (L : BitcoinLib η) (network : Network) in
/-- The dry-run signature `signTx` puts on a commit spending `u` has a length that does not depend
on `u`'s amount: a P2PKH signature does not sign the amount, a Taproot signature always has 64
bytes, and a segwit v0 signature, which signs the amount, needs the library's encoded ECDSA
signatures to have one length. -/
def AmountFreeSignature (u : PrevOutput) : Prop :=
  L.getAddressType u.address network = .legacy ∨
    L.getAddressType u.address network = .segwitTaproot ∨
    ∀ (h h' : Bytes) (k : String), (L.signatureEncode (L.sign h k) sighashAll).length =
      (L.signatureEncode (L.sign h' k) sighashAll).length

/-- `u'` is the funding output `u` with its amount raised or kept. -/
def PrevOutput.Raised (u u' : PrevOutput) : Prop :=
  ∃ a, u.amount ≤ a ∧ u' = { u with amount := a }

variable (L : BitcoinLib η) (network : Network) in
/-- `u'` funds a chain as `u` does, with as much value: the same output with its amount raised
or kept, and, when raised, a dry-run signature whose length the amount does not change. -/
def FundsAlike (u u' : PrevOutput) : Prop :=
  PrevOutput.Raised u u' ∧ (AmountFreeSignature L network u ∨ u' = u)

/-- What the signer reads of a transaction, compared across two runs: `tx'` spends the outputs
of the same indices as `tx`, and pays the scripts `tx` pays, perhaps with more after them, as a
last reveal that keeps the change the first run dropped. -/
def Transaction.Widens (tx tx' : Transaction η) : Prop :=
  tx.ins.map (·.index) = tx'.ins.map (·.index) ∧ tx.outs.map (·.script) <+: tx'.outs.map (·.script)

/-- Transactions with the same frame widen each other. -/
theorem Transaction.Widens.of_frame {tx tx' : Transaction η} (h : tx.frame = tx'.frame) :
    tx.Widens tx' := by
  simp only [Transaction.frame, Prod.mk.injEq] at h
  exact ⟨by simpa using congrArg (List.map (·.1)) h.2.2.1, by rw [h.2.2.2]⟩

/-- Two tools whose contexts and context mappings agree, with chains related transaction by
transaction by `Transaction.Widens`: the signer sees them alike. -/
structure ToolsAlike (tool tool' : ChainInscriptionTool η) : Prop where
  ctxs_eq : tool'.inscriptionTxCtxDataList = tool.inscriptionTxCtxDataList
  mapping_eq : tool'.chainContextMapping = tool.chainContextMapping
  chains : List.Forall₂ (List.Forall₂ Transaction.Widens) tool.txChains tool'.txChains

namespace ToolsAlike
variable {tool tool' : ChainInscriptionTool η}

/-- A tool is alike itself. -/
theorem refl (tool : ChainInscriptionTool η) : ToolsAlike tool tool :=
  ⟨rfl, rfl, List.forall₂_same.2 fun _ _ => List.forall₂_same.2 fun _ _ =>
    ⟨rfl, List.prefix_refl _⟩⟩

theorem contextOf_eq (h : ToolsAlike tool tool') (c t : ℕ) :
    contextOf tool' c t = contextOf tool c t := by
  simp [contextOf, h.ctxs_eq, h.mapping_eq]

theorem recordAll (h : ToolsAlike tool tool') (fs fs' : List TxFee) (ms : List ContextMapping) :
    ToolsAlike (tool.recordAll fs ms) (tool'.recordAll fs' ms) :=
  ⟨h.ctxs_eq, by simp [h.mapping_eq], h.chains⟩

end ToolsAlike

/-- Settings `p'` relax `p`: the same final change address, and a reveal output value, a minimum
change and fee rates no larger. -/
structure ChainParams.Relaxes (p p' : ChainParams) : Prop where
  revealOutValue_le : p'.revealOutValue ≤ p.revealOutValue
  revealFeeRate_le : p'.revealFeeRate.toRat ≤ p.revealFeeRate.toRat
  finalChangeAddress_eq : p'.finalChangeAddress = p.finalChangeAddress
  minChangeValue_le : p'.minChangeValue ≤ p.minChangeValue
  commitFeeRate_le : p'.commitFeeRate.toRat ≤ p.commitFeeRate.toRat

theorem ChainParams.Relaxes.refl (p : ChainParams) : p.Relaxes p :=
  ⟨le_rfl, le_rfl, rfl, le_rfl, le_rfl⟩

variable {L : BitcoinLib η} {network : Network}

/-! ## The fees of the two runs -/

/-- A reveal's fee reads the candidate through its frame and the stand-in inputs through their
addresses. -/
theorem ChargedFee.of_frame (hsize : FrameSized L network) {r : FeeRate}
    {x : Option InscriptionTxCtxData} {inputs inputs' : List PrevOutput} {aux : ℕ → Bytes}
    {S S' : Transaction η} {f : ℤ} (h : ChargedFee L network r false x inputs aux S f)
    (hS : S.frame = S'.frame) (hin : inputs'.map (·.address) = inputs.map (·.address)) :
    ChargedFee L network r false x inputs' aux S' f := by
  obtain ⟨clone, vsize, hc, hv, rfl⟩ := h
  cases x with
  | none => simp [plausibleClone] at hc
  | some ctx =>
    simp only [plausibleClone, Bool.false_eq_true, if_false] at hc
    split_ifs at hc with hlen
    cases hc
    refine ⟨S'.setWitness 0 (emptySignature :: ctx.witness), vsize,
      by simp [plausibleClone, ← Transaction.length_ins_of_frame hS, hlen], ?_, rfl⟩
    rw [hin, ← hsize _ _ _ (Transaction.frame_setWitness_congr hS 0 rfl), hv]

/-- The dry-run signature of a commit on a funding output and on the same output with another
amount leave the commit with the same frame. -/
theorem signInput_frame_of_amount {u : PrevOutput} (a : ℕ) {C s : Transaction η} {aux : Bytes}
    (hsig : AmountFreeSignature L network u) (h : signInput L network [u] C 0 u aux = .ok s) :
    ∃ s', signInput L network [{ u with amount := a }] C 0 { u with amount := a } aux = .ok s' ∧
      s.frame = s'.frame := by
  have hlen : L.getAddressType u.address network ≠ .legacy →
      L.getAddressType u.address network ≠ .segwitTaproot → ∀ (w b b' : Bytes) (k : String),
      [L.signatureEncode (L.sign b k) sighashAll, w].map List.length =
        [L.signatureEncode (L.sign b' k) sighashAll, w].map List.length := fun h₁ h₂ w b b' k => by
    simp only [List.map_cons, List.map_nil, List.cons.injEq, and_true]
    exact (hsig.resolve_left h₁).resolve_left h₂ b b' k
  unfold signInput at h ⊢
  simp only [List.mapM_cons, List.mapM_nil] at h ⊢
  cases hk : L.privateKeyFromWIF u.privateKey network <;> simp only [hk] at h ⊢
  · cases h
  cases ht : L.getAddressType u.address network <;> simp only [ht] at h ⊢
  · cases hs : L.toOutputScript u.address network <;> simp only [hs] at h ⊢
    · cases h
    · cases h; exact ⟨_, rfl, rfl⟩
  · cases h
    exact ⟨_, rfl, Transaction.frame_setWitness_congr rfl 0
      (hlen (by simp [ht]) (by simp [ht]) _ _ _ _)⟩
  · cases h
    exact ⟨_, rfl, Transaction.frame_setScript_congr (Transaction.frame_setWitness_congr rfl 0
      (hlen (by simp [ht]) (by simp [ht]) _ _ _ _)) 0 _⟩
  · cases hs : L.toOutputScript u.address network <;> simp only [hs] at h ⊢
    · cases h
    · cases h
      exact ⟨_, rfl, Transaction.frame_setWitness_congr rfl 0 (by simp [SchnorrSig.length_eq])⟩
  · cases h
    exact ⟨_, rfl, Transaction.frame_setWitness_congr rfl 0
      (hlen (by simp [ht]) (by simp [ht]) _ _ _ _)⟩

/-- A commit's fee on a funding output is its fee on the same output with another amount. -/
theorem ChargedFee.of_amount (hsize : FrameSized L network) {r : FeeRate} {u : PrevOutput}
    (a : ℕ) {C : Transaction η} {aux : ℕ → Bytes} {f : ℤ} (hsig : AmountFreeSignature L network u)
    (hC : C.ins.length = 1) (h : ChargedFee L network r true none [u] aux C f) :
    ChargedFee L network r true none [{ u with amount := a }] aux C f := by
  obtain ⟨clone, vsize, hc, hv, rfl⟩ := h
  simp only [plausibleClone, if_true, signTx_eq_signInput hC] at hc
  cases hs : signInput L network [u] C 0 u (aux 0) with
  | error e => simp [hs, Except.toOption] at hc
  | ok s =>
    simp only [hs, Except.toOption, Option.some.injEq] at hc
    subst hc
    obtain ⟨s', hs', hframe⟩ := signInput_frame_of_amount a hsig hs
    exact ⟨s', vsize, by simp [plausibleClone, signTx_eq_signInput hC, hs', Except.toOption],
      by rw [← hsize _ _ _ hframe]; exact hv, rfl⟩

/-- At a rate no larger, the estimator charges no more for the same candidate. -/
theorem ChargedFee.of_rate_le {r r' : FeeRate} {c : Bool} {x : Option InscriptionTxCtxData}
    {inputs : List PrevOutput} {aux : ℕ → Bytes} {S : Transaction η} {f : ℤ}
    (hr : r'.toRat ≤ r.toRat) (h : ChargedFee L network r c x inputs aux S f) :
    ∃ f', ChargedFee L network r' c x inputs aux S f' ∧ f' ≤ f := by
  obtain ⟨clone, vsize, hc, hv, rfl⟩ := h
  exact ⟨_, ⟨clone, vsize, hc, hv, rfl⟩, feeFor_le_of_toRat_le hr vsize⟩

/-- A reveal candidate with the frame of one the estimator charged, at a rate no larger, is
charged no more. -/
theorem ChargedFee.relax (hsize : FrameSized L network) {r r' : FeeRate}
    (hr : r'.toRat ≤ r.toRat) {x : Option InscriptionTxCtxData} {inputs inputs' : List PrevOutput}
    {aux : ℕ → Bytes} {S S' : Transaction η} {f : ℤ}
    (h : ChargedFee L network r false x inputs aux S f) (hS : S.frame = S'.frame)
    (hin : inputs'.map (·.address) = inputs.map (·.address)) :
    ∃ f', ChargedFee L network r' false x inputs' aux S' f' ∧ f' ≤ f :=
  (h.of_frame hsize hS hin).of_rate_le hr

/-! ## The builder's two runs -/

section Builder
variable {first : InscriptionTxCtxData} {p : ChainParams} {start c : ℕ}

/-- **The reveal loop on more value, under relaxed settings.** A reveal loop that succeeded
from a predecessor holding `v` succeeds from any predecessor holding at least `v`, under settings
that relax the first run's, on any chain built so far that widens the first run's, and the
chains it returns are related by `Transaction.Widens`. Every fee of the second run is at most the
first run's, so every change is at least as large. -/
theorem revealLoop_relax (hsize : FrameSized L network) {p' : ChainParams} (hp : p.Relaxes p')
    {utxo utxo' : PrevOutput} {xs : List InscriptionTxCtxData} {i k : ℕ}
    {prev prev' : Transaction η} {v v' : ℤ} {txChain txChain' : List (Transaction η)}
    {tool tool' : ChainInscriptionTool η} {res : List (Transaction η) × ChainInscriptionTool η}
    (h : revealLoop L network utxo first p start c xs i prev v k txChain tool = .ok res)
    (hv : v ≤ v') (hch : List.Forall₂ Transaction.Widens txChain txChain') :
    ∃ res', revealLoop L network utxo' first p' start c xs i prev' v' k txChain' tool' = .ok res' ∧
      List.Forall₂ Transaction.Widens res.1 res'.1 := by
  have hF := hp.revealOutValue_le
  have hM' := hp.minChangeValue_le
  induction xs generalizing i prev prev' v v' k txChain txChain' tool tool' with
  | nil =>
    simp only [revealLoop, Except.pure_eq_ok] at h
    exact ⟨_, rfl, h ▸ hch⟩
  | cons x rest ih =>
    simp only [revealLoop] at h ⊢
    rw [hp.finalChangeAddress_eq]
    by_cases hca : changeAddressFor p.finalChangeAddress rest = ""
    · simp [hca] at h
    rw [if_neg hca] at h ⊢
    obtain ⟨cs, hcs, h⟩ := Except.bind_eq_ok.1 h
    rw [hcs, Except.ok_bind]
    obtain ⟨⟨fee, change⟩, hest, h⟩ := Except.bind_eq_ok.1 h
    obtain ⟨f, hf, ⟨hcase, rfl, rfl⟩ | ⟨-, hlen, hM, f', hf', ⟨hI, rfl, rfl⟩ | ⟨-, -, rfl⟩⟩⟩ :=
      estimateFeeAndOutput_eq_ok hest
    · -- the first run keeps the change, and the second keeps at least as much
      have hmin : (p.minChangeValue : ℤ) ≤ v - p.revealOutValue - fee := by
        rcases hcase with h' | h' | h'
        · cases h'
        · simp at h'
        · exact h'
      obtain ⟨fee', hf₂, hle⟩ : ∃ f', ChargedFee L network p'.revealFeeRate false (some x)
          [revealInput utxo' first v'] noDraws (newRevealTx L prev' k x p'.revealOutValue cs) f' ∧
          f' ≤ fee := hf.relax hsize hp.revealFeeRate_le rfl rfl
      have hmin' : (p'.minChangeValue : ℤ) ≤ v' - p'.revealOutValue - fee' := by omega
      simp only [show v - p.revealOutValue - fee ≠ -1 by omega, if_false, ge_iff_le, hmin,
        if_true] at h
      rw [estimateFeeAndOutput_of_charged hf₂ (.inr (.inr hmin')), Except.ok_bind]
      simp only [show v' - p'.revealOutValue - fee' ≠ -1 by omega, if_false, ge_iff_le, hmin',
        if_true]
      exact ih h (by omega) (List.rel_append hch (.cons (.of_frame (by simp; rfl)) .nil))
    · -- the first run drops the last change; the second keeps it or drops it too
      cases rest with
      | cons _ _ => simp at h
      | nil =>
        simp only [if_true, List.isEmpty_nil, not_true_eq_false, if_false] at h
        obtain ⟨⟨fee₂, change₂⟩, hest₂, h⟩ := Except.bind_eq_ok.1 h
        obtain ⟨f₂, hf₂, ⟨-, rfl, rfl⟩ | ⟨-, hlen₂, -⟩⟩ := estimateFeeAndOutput_eq_ok hest₂
        · simp only [Except.pure_eq_ok] at h
          subst h
          obtain ⟨g, hg, hle⟩ : ∃ g, ChargedFee L network p'.revealFeeRate false (some x)
              [revealInput utxo' first v'] noDraws (newRevealTx L prev' k x p'.revealOutValue cs) g ∧
              g ≤ f := hf.relax hsize hp.revealFeeRate_le rfl rfl
          by_cases hkeep : (p'.minChangeValue : ℤ) ≤ v' - p'.revealOutValue - g
          · rw [estimateFeeAndOutput_of_charged hg (.inr (.inr hkeep)), Except.ok_bind]
            simp only [show v' - p'.revealOutValue - g ≠ -1 by omega, if_false, ge_iff_le, hkeep,
              if_true, revealLoop, Except.pure_eq_ok]
            refine ⟨_, rfl, List.rel_append hch (.cons ⟨rfl, ?_⟩ .nil)⟩
            simp
          · obtain ⟨gd, hgd, hled⟩ : ∃ g, ChargedFee L network p'.revealFeeRate false (some x)
                [revealInput utxo' first v'] noDraws
                ((newRevealTx L prev' k x p'.revealOutValue cs).spliceOutput 1) g ∧ g ≤ fee :=
              hf'.relax hsize hp.revealFeeRate_le rfl rfl
            obtain ⟨g₂, hg₂, -⟩ : ∃ g, ChargedFee L network p'.revealFeeRate false (some x)
                [revealInput utxo' first v'] noDraws
                (newRevealTx L prev' k x p'.revealOutValue cs).popOutput
                g ∧ g ≤ fee₂ := hf₂.relax hsize hp.revealFeeRate_le rfl rfl
            rw [estimateFeeAndOutput_of_drop hg hlen (by omega) hgd (by omega), Except.ok_bind]
            simp only [if_true, List.isEmpty_nil, not_true_eq_false, if_false]
            rw [estimateFeeAndOutput_of_charged hg₂ (.inr (.inl (by simp))), Except.ok_bind]
            exact ⟨_, rfl, List.rel_append hch (.cons (.of_frame rfl) .nil)⟩
        · simp at hlen₂
    · simp at h

/-- **A chain on as much value, under relaxed settings.** A chain built on a funding output is
built on any output that funds it alike, under settings that relax the first run's, its
transactions widening the first run's, with the same context mappings recorded. -/
theorem buildSingleUtxoChain_relax (hsize : FrameSized L network) {p' : ChainParams}
    (hp : p.Relaxes p') {tool tool' : ChainInscriptionTool η} {utxo utxo' : PrevOutput}
    {xs : List InscriptionTxCtxData} {aux : ℕ → Bytes}
    {res : List (Transaction η) × ChainInscriptionTool η}
    (hu : FundsAlike L network utxo utxo') (ht : ToolsAlike tool tool')
    (h : buildSingleUtxoChain L network tool utxo xs p start c aux = .ok res) :
    ∃ res', buildSingleUtxoChain L network tool' utxo' xs p' start c aux = .ok res' ∧
      List.Forall₂ Transaction.Widens res.1 res'.1 ∧ ToolsAlike res.2 res'.2 := by
  obtain ⟨⟨a, ha, rfl⟩, hsig⟩ := hu
  obtain _ | ⟨x, rest⟩ := xs
  · simp only [buildSingleUtxoChain, Except.pure_eq_ok] at h
    exact ⟨_, rfl, h ▸ .nil, h ▸ ht⟩
  obtain ⟨_, fees, -, rfl⟩ := buildSingleUtxoChain_eq_ok (List.cons_ne_nil x rest) h
  simp only [buildSingleUtxoChain] at h
  obtain ⟨⟨fee, change⟩, hest, h⟩ := Except.bind_eq_ok.1 h
  obtain ⟨f, hf, ⟨-, rfl, rfl⟩ | ⟨hc, -⟩⟩ := estimateFeeAndOutput_eq_ok hest
  · by_cases hneg : (utxo.amount : ℤ) < fee
    · simp [hneg] at h
    simp only [sub_zero, sub_neg, hneg, if_false] at h
    have hg : ChargedFee L network p.commitFeeRate true none [{ utxo with amount := a }] aux
        (initialCommitTx L { utxo with amount := a } x) fee := by
      rcases hsig with hsig | hsig
      · exact hf.of_amount hsize a hsig rfl
      · rw [hsig]; exact hf
    obtain ⟨fee', hg', hle⟩ := hg.of_rate_le hp.commitFeeRate_le
    set C := (initialCommitTx L { utxo with amount := a } x).setOutputValue 0 (a - fee')
    obtain ⟨res', h', hw⟩ : ∃ res', revealLoop L network { utxo with amount := a } x p' start c
        (x :: rest) 0 C (a - fee') 0 [C] (tool'.recordTx c 0 fee' none) = .ok res' ∧
        List.Forall₂ Transaction.Widens _ res'.1 :=
      revealLoop_relax hsize hp h (by omega)
        (.cons (.of_frame (by simp only [C, Transaction.frame_setOutputValue]; rfl)) .nil)
    have hb' :
        buildSingleUtxoChain L network tool' { utxo with amount := a } (x :: rest) p' start c aux =
          .ok res' := by
      simp only [buildSingleUtxoChain]
      rw [estimateFeeAndOutput_of_charged hg' (.inl rfl), Except.ok_bind]
      simpa [show ¬ ((a : ℤ) < fee') by omega] using h'
    obtain ⟨_, fees', -, rfl⟩ := buildSingleUtxoChain_eq_ok (List.cons_ne_nil x rest) hb'
    exact ⟨_, hb', hw, ht.recordAll _ _ _⟩
  · cases hc

/-- Adding a chain to two tools alike, the two chains related transaction by transaction. -/
theorem ToolsAlike.push {tool tool' : ChainInscriptionTool η} {chain chain' : List (Transaction η)}
    (ht : ToolsAlike tool tool') (hw : List.Forall₂ Transaction.Widens chain chain') :
    ToolsAlike
      (if chain.length > 0 then { tool with txChains := tool.txChains ++ [chain] } else tool)
      (if chain'.length > 0 then { tool' with txChains := tool'.txChains ++ [chain'] } else
        tool') := by
  rw [← hw.length_eq]
  split
  · exact ⟨ht.ctxs_eq, ht.mapping_eq, List.rel_append ht.chains (.cons hw .nil)⟩
  · exact ht

/-- **The planner on as much value, under relaxed settings.** A planner loop that succeeded on
funding outputs succeeds on outputs that fund each chain alike, under settings that relax the
first run's, from a tool alike, and ends with a tool alike. -/
theorem planLoop_relax (hsize : FrameSized L network) {p' : ChainParams} (hp : p.Relaxes p')
    {utxos utxos' : List PrevOutput} (hfund : List.Forall₂ (FundsAlike L network) utxos utxos')
    {fuel s u : ℕ} {tool tool' : ChainInscriptionTool η} {r : ℕ × ChainInscriptionTool η}
    (ht : ToolsAlike tool tool') (h : planLoop L network rand utxos p fuel s u tool = .ok r) :
    ∃ r', planLoop L network rand utxos' p' fuel s u tool' = .ok r' ∧ ToolsAlike r.2 r'.2 := by
  induction fuel generalizing s u tool tool' with
  | zero =>
    simp only [planLoop, Except.pure_eq_ok] at h
    exact ⟨_, rfl, h ▸ ht⟩
  | succ fuel ih =>
    simp only [planLoop] at h ⊢
    rw [ht.ctxs_eq, ← ht.chains.length_eq]
    by_cases hs : s < tool.inscriptionTxCtxDataList.length
    swap
    · simp only [hs, if_false, Except.pure_eq_ok] at h ⊢
      exact ⟨_, rfl, h ▸ ht⟩
    by_cases hu : u < utxos.length
    swap
    · simp [hs, show utxos.length ≤ u by omega] at h
    have hu' : u < utxos'.length := hfund.length_eq ▸ hu
    simp only [hs, if_true, ge_iff_le, not_le.2 hu, not_le.2 hu', dif_neg, not_false_eq_true]
      at h ⊢
    split at h
    · cases h
    next hsl =>
    rw [if_neg hsl]
    obtain ⟨⟨chain, tool₁⟩, hb, h⟩ := Except.bind_eq_ok.1 h
    obtain ⟨⟨chain', tool₁'⟩, hb', hw, ht₁⟩ :=
      buildSingleUtxoChain_relax hsize hp (hfund.get hu hu') ht hb
    rw [hb', Except.ok_bind]
    exact ih (ht₁.push hw) h

/-- `buildEnhancedInscriptionChains` on as much value, under relaxed settings. -/
theorem buildEnhancedInscriptionChains_relax (hsize : FrameSized L network) {p' : ChainParams}
    (hp : p.Relaxes p') {utxos utxos' : List PrevOutput}
    (hfund : List.Forall₂ (FundsAlike L network) utxos utxos')
    {tool tool' plan : ChainInscriptionTool η} (ht : ToolsAlike tool tool')
    (h : buildEnhancedInscriptionChains L network rand tool utxos p = .ok plan) :
    ∃ plan', buildEnhancedInscriptionChains L network rand tool' utxos' p' = .ok plan' ∧
      ToolsAlike plan plan' := by
  unfold buildEnhancedInscriptionChains at h ⊢
  rw [← hfund.length_eq, ht.ctxs_eq]
  split_ifs at h ⊢
  · exact ⟨_, rfl, (Except.pure_eq_ok.1 h) ▸ ht⟩
  · exact ⟨_, rfl, (Except.pure_eq_ok.1 h) ▸ ht⟩
  · obtain ⟨⟨s, tool₁⟩, hl, h⟩ := Except.bind_eq_ok.1 h
    obtain ⟨⟨s', tool₁'⟩, hl', ht₁⟩ := planLoop_relax hsize hp hfund ht hl
    exact ⟨_, by rw [hl']; rfl, (Except.pure_eq_ok.1 h) ▸ ht₁⟩

end Builder

/-! ## The signer's two runs -/

section Signer
variable {tool tool' : ChainInscriptionTool η} {c : ℕ}

/-- An entry of a list is the entry of any list it is a prefix of. -/
theorem getElem?_of_prefix {α : Type} {l l' : List α} (h : l <+: l') {i : ℕ} {a : α}
    (ha : l[i]? = some a) : l'[i]? = some a := by
  obtain ⟨z, rfl⟩ := h
  rw [List.getElem?_append_left (List.getElem?_eq_some_iff.1 ha).1, ha]

/-- The signer's reveal branch passes on a widened reveal, against outputs that pay the same
scripts first, when the mapping gives the reveal the same context; both keep their outputs. -/
theorem signReveal_widen {t : ℕ} {prevOuts prevOuts' : List Output} {tx tx' stx : Transaction η}
    {aux : Bytes} (h : signReveal L tool c t prevOuts tx aux = .ok stx) (hw : tx.Widens tx')
    (hout : prevOuts.map (·.script) <+: prevOuts'.map (·.script))
    (hctx : contextOf tool' c t = contextOf tool c t) :
    stx.outs = tx.outs ∧ ∃ stx', signReveal L tool' c t prevOuts' tx' aux = .ok stx' ∧
      stx'.outs = tx'.outs := by
  obtain ⟨input, o, x, hin, ho, hx, hs, rfl⟩ := signReveal_eq_ok h
  obtain ⟨input', hin', hidx⟩ :
      ∃ input', tx'.ins[0]? = some input' ∧ input'.index = input.index := by
    have := congrArg (·[0]?) hw.1
    simp only [List.getElem?_map, hin, Option.map_some'] at this
    obtain ⟨input', hi', he⟩ := Option.map_eq_some'.1 this.symm
    exact ⟨input', hi', he⟩
  obtain ⟨o', ho', hso⟩ : ∃ o', prevOuts'[input.index]? = some o' ∧ o'.script = o.script := by
    have hs : (prevOuts.map (·.script))[input.index]? = some o.script := by simp [ho]
    simpa using getElem?_of_prefix hout hs
  exact ⟨rfl, _, signReveal_eq L tx' hin' (hidx ▸ ho') (hctx.trans hx) (by rw [hs, hso]) aux, rfl⟩

/-- The signer's pass over one chain passes on the widened chain, from a funding output with the
same key and address, when the mapping gives each reveal the same context; both runs sign the
same number of transactions. -/
theorem signChain_widen {utxo utxo' : PrevOutput} (hkey : utxo'.privateKey = utxo.privateKey)
    (haddr : utxo'.address = utxo.address) (hctx : ∀ t, contextOf tool' c t = contextOf tool c t)
    {chain chain' : List (Transaction η)} (hw : List.Forall₂ Transaction.Widens chain chain') :
    ∀ {t : ℕ} {prevOuts prevOuts' : List Output} {signed : List (Transaction η)},
      prevOuts.map (·.script) <+: prevOuts'.map (·.script) →
      signChain L network rand tool c utxo chain t prevOuts = .ok signed →
      ∃ signed', signChain L network rand tool' c utxo' chain' t prevOuts' = .ok signed' ∧
        signed'.length = signed.length := by
  induction hw with
  | nil =>
    intro _ _ _ _ _ h
    simp only [signChain, Except.pure_eq_ok] at h
    exact ⟨[], rfl, by rw [← h]⟩
  | @cons tx tx' rest rest' hx _ ih =>
    intro t prevOuts prevOuts' signed hout h
    simp only [signChain] at h
    obtain ⟨stx, hstx, h⟩ := Except.bind_eq_ok.1 h
    obtain ⟨srest, hrest, h⟩ := Except.bind_eq_ok.1 h
    simp only [Except.pure_eq_ok] at h
    subst h
    rw [rethrowWith_eq_ok] at hstx
    obtain ⟨hso, stx', hstx', hso'⟩ : stx.outs = tx.outs ∧ ∃ stx',
        signChain L network rand tool' c utxo' (tx' :: rest') t prevOuts' =
          (signChain L network rand tool' c utxo' rest' (t + 1) stx'.outs).map (stx' :: ·) ∧
        stx'.outs = tx'.outs := by
      split_ifs at hstx with ht
      · subst ht
        have hins : tx'.ins.length = tx.ins.length := by simpa using congrArg List.length hx.1.symm
        obtain ⟨hso, stx', hs', hso'⟩ := signTx_ok_congr hstx (.cons ⟨hkey, haddr⟩ .nil) hins
        exact ⟨hso, stx', signChain_cons_zero hs', hso'⟩
      · obtain ⟨hso, stx', hs', hso'⟩ := signReveal_widen hstx hx hout (hctx t)
        exact ⟨hso, stx', signChain_cons_reveal (Nat.pos_of_ne_zero ht) hs', hso'⟩
    have hout' : stx.outs.map (·.script) <+: stx'.outs.map (·.script) := by
      rw [hso, hso']; exact hx.2
    obtain ⟨srest', hrest', hl⟩ := ih hout' hrest
    exact ⟨stx' :: srest', by rw [hstx', hrest']; rfl, by simp [hl]⟩

/-- Related lists hold related entries at every index. -/
theorem rel_getElem?_of_forall₂ {α β : Type} {R : α → β → Prop} {l : List α} {l' : List β}
    (h : List.Forall₂ R l l') (i : ℕ) : Option.Rel R l[i]? l'[i]? := by
  induction h generalizing i with
  | nil => exact .none
  | cons hr _ ih =>
    cases i with
    | zero => simpa using Option.Rel.some hr
    | succ i => simpa using ih i

/-- A step of the signer's loop: when its first action passes on the second run to a chain of
the same length and the rest passes to chains of the same lengths, the step passes too. -/
theorem bind_cons_ok_congr {α : Type} {x x' : Except String (List α)}
    {y y' : Except String (List (List α))} {signed : List (List α)}
    (hx : ∀ a, x = .ok a → ∃ a', x' = .ok a' ∧ a'.length = a.length)
    (hy : ∀ {b}, y = .ok b → ∃ b', y' = .ok b' ∧ b'.map List.length = b.map List.length)
    (h : (do let a ← x; let b ← y; pure (a :: b)) = .ok signed) :
    ∃ signed', (do let a ← x'; let b ← y'; pure (a :: b)) = .ok signed' ∧
      signed'.map List.length = signed.map List.length := by
  obtain ⟨a, ha, h⟩ := Except.bind_eq_ok.1 h
  obtain ⟨b, hb, h⟩ := Except.bind_eq_ok.1 h
  obtain ⟨a', ha', hla⟩ := hx a ha
  obtain ⟨b', hb', hlb⟩ := hy hb
  refine ⟨a' :: b', by rw [ha', hb']; rfl, ?_⟩
  rw [← Except.pure_eq_ok.1 h, List.map_cons, List.map_cons, hla, hlb]

/-- The signer's pass over the chains passes on widened chains funded by raised outputs, when
the mapping gives every reveal the same context; it signs chains of the same lengths. -/
theorem signChains_widen {utxos utxos' : List PrevOutput}
    (hraise : List.Forall₂ PrevOutput.Raised utxos utxos')
    (hctx : ∀ c t, contextOf tool' c t = contextOf tool c t)
    {chains chains' : List (List (Transaction η))}
    (hw : List.Forall₂ (List.Forall₂ Transaction.Widens) chains chains') :
    ∀ {k : ℕ} {signed : List (List (Transaction η))},
      signChains L network rand tool utxos chains k = .ok signed →
      ∃ signed', signChains L network rand tool' utxos' chains' k = .ok signed' ∧
        signed'.map List.length = signed.map List.length := by
  induction hw with
  | nil =>
    intro _ _ h
    simp only [signChains, Except.pure_eq_ok] at h
    exact ⟨[], rfl, by rw [← h]⟩
  | @cons chain chain' rest rest' hc _ ih =>
    intro k signed h
    have unsigned : ∀ schain, (pure chain : Except String _) = .ok schain →
        ∃ schain', (pure chain' : Except String _) = .ok schain' ∧
          schain'.length = schain.length :=
      fun _ hs => ⟨chain', rfl, (Except.pure_eq_ok.1 hs) ▸ hc.length_eq.symm⟩
    rw [signChains] at h ⊢
    have hrel := rel_getElem?_of_forall₂ hraise k
    generalize utxos[k]? = o at h hrel
    generalize utxos'[k]? = o' at hrel ⊢
    cases hrel with
    | none => exact bind_cons_ok_congr unsigned ih h
    | @some u u' hr =>
      obtain ⟨a, -, rfl⟩ := hr
      dsimp only at h ⊢
      split_ifs at h ⊢
      · exact bind_cons_ok_congr unsigned ih h
      · have hkey : ({ u with amount := a } : PrevOutput).privateKey = u.privateKey := rfl
        exact bind_cons_ok_congr
          (fun _ => signChain_widen hkey rfl (hctx k) hc (List.prefix_refl _)) ih h

/-- The signer passes on tools alike, with raised funding outputs, and signs chains of the same
lengths. -/
theorem signAllTransactions_widen {utxos utxos' : List PrevOutput}
    (hraise : List.Forall₂ PrevOutput.Raised utxos utxos')
    {plan plan' tool : ChainInscriptionTool η} (ht : ToolsAlike plan plan')
    (h : signAllTransactions L network rand plan utxos = .ok tool) :
    ∃ tool', signAllTransactions L network rand plan' utxos' = .ok tool' ∧
      tool'.txChains.map List.length = tool.txChains.map List.length := by
  obtain ⟨signed, hs, rfl⟩ := signAllTransactions_eq_ok h
  obtain ⟨signed', hs', hl⟩ := signChains_widen hraise ht.contextOf_eq ht.chains hs
  exact ⟨_, signAllTransactions_eq hs', hl⟩

end Signer

/-! ## The whole run -/

/-- The key check reads no amount. -/
theorem checkPrivateKeys_raised {us us' : List PrevOutput}
    (h : List.Forall₂ PrevOutput.Raised us us') (i : ℕ) :
    checkPrivateKeys us' i = checkPrivateKeys us i := by
  induction h generalizing i with
  | nil => rfl
  | cons hu _ ih =>
    obtain ⟨a, -, rfl⟩ := hu
    simp only [checkPrivateKeys, ih]

/-- `newChainInscriptionTool` builds a tool for a request with funding outputs that fund each
chain alike, the same inscriptions and relaxed settings, with chains of the same lengths. -/
theorem newChainInscriptionTool_relax (hsize : FrameSized L network)
    {request request' : InscriptionRequest}
    (hfund : List.Forall₂ (FundsAlike L network) request.commitTxPrevOutputList
      request'.commitTxPrevOutputList)
    (hdata : request'.inscriptionDataList = request.inscriptionDataList)
    (hp : request.chainParams.Relaxes request'.chainParams)
    {tool : ChainInscriptionTool η} (h : newChainInscriptionTool L network rand request = .ok tool) :
    ∃ tool', newChainInscriptionTool L network rand request' = .ok tool' ∧
      tool'.txChains.map List.length = tool.txChains.map List.length := by
  unfold newChainInscriptionTool at h ⊢
  have hraise := hfund.imp fun _ _ hu => hu.1
  have hk := checkPrivateKeys_raised hraise 0
  rw [hdata]
  generalize request.chainParams = p at h hp
  generalize request'.chainParams = p' at hp ⊢
  generalize request.commitTxPrevOutputList = utxos at h hfund hraise hk
  generalize request'.commitTxPrevOutputList = utxos' at hfund hraise hk ⊢
  cases hfund with
  | nil => cases h
  | @cons u u' us us' hu hus =>
    obtain ⟨⟨a, ha, rfl⟩, hsig⟩ := hu
    dsimp only at h ⊢
    split_ifs at h ⊢
    obtain ⟨⟨⟩, hk₀, h⟩ := Except.bind_eq_ok.1 h
    obtain ⟨ctxs, hctxs, h⟩ := Except.bind_eq_ok.1 h
    obtain ⟨plan, hplan, hs⟩ := Except.bind_eq_ok.1 h
    obtain ⟨plan', hplan', ht⟩ := buildEnhancedInscriptionChains_relax hsize hp
      (.cons ⟨⟨a, ha, rfl⟩, hsig⟩ hus) (ToolsAlike.refl _) hplan
    obtain ⟨tool', hs', hl⟩ := signAllTransactions_widen hraise ht hs
    refine ⟨tool', ?_, hl⟩
    simp only [hk, hk₀, hctxs, Except.ok_bind]
    exact Except.bind_eq_ok.2 ⟨plan', hplan', hs'⟩

/-- Raised funding outputs with amount-free dry-run signatures fund each chain alike. -/
theorem forall₂_fundsAlike_of_raised {utxos utxos' : List PrevOutput}
    (hsig : ∀ u ∈ utxos, AmountFreeSignature L network u)
    (hraise : List.Forall₂ PrevOutput.Raised utxos utxos') :
    List.Forall₂ (FundsAlike L network) utxos utxos' := by
  induction hraise with
  | nil => exact .nil
  | cons hu _ ih =>
    exact .cons ⟨hu, .inl (hsig _ (List.mem_cons_self _ _))⟩
      (ih fun u hu => hsig u (List.mem_cons_of_mem _ hu))

/-- `newChainInscriptionTool` builds a tool for the request with raised funding amounts, with
chains of the same lengths. -/
theorem newChainInscriptionTool_widen (hsize : FrameSized L network) {request : InscriptionRequest}
    {utxos' : List PrevOutput}
    (hsig : ∀ u ∈ request.commitTxPrevOutputList, AmountFreeSignature L network u)
    (hraise : List.Forall₂ PrevOutput.Raised request.commitTxPrevOutputList utxos')
    {tool : ChainInscriptionTool η} (h : newChainInscriptionTool L network rand request = .ok tool) :
    ∃ tool', newChainInscriptionTool L network rand { request with commitTxPrevOutputList := utxos' } =
      .ok tool' ∧ tool'.txChains.map List.length = tool.txChains.map List.length := by
  refine newChainInscriptionTool_relax hsize ?_ ?_ ?_ h
  · exact forall₂_fundsAlike_of_raised hsig hraise
  · rfl
  · exact ChainParams.Relaxes.refl _

/-- **Success is upward-closed in the funding amounts.** On a library that sizes transactions by
their frame, a request that succeeds, with funding outputs whose dry-run signatures have lengths
free of their amounts, succeeds again with every funding amount raised or kept, with chains of
the same number and lengths. -/
theorem inscribeChain_success_of_raised (hsize : FrameSized L network)
    {request : InscriptionRequest} {utxos' : List PrevOutput}
    (hsig : ∀ u ∈ request.commitTxPrevOutputList, AmountFreeSignature L network u)
    (hraise : List.Forall₂ PrevOutput.Raised request.commitTxPrevOutputList utxos')
    (h : (inscribeChain L network rand request).success = true) :
    (inscribeChain L network rand { request with commitTxPrevOutputList := utxos' }).success = true ∧
      (inscribeChain L network rand { request with commitTxPrevOutputList := utxos' }).txChains.map
          List.length = (inscribeChain L network rand request).txChains.map List.length := by
  obtain ⟨tool, packed, hn, -, -⟩ := inscribeChain_eq_of_success h
  obtain ⟨tool', hn', hl⟩ := newChainInscriptionTool_widen hsize hsig hraise hn
  obtain ⟨_, _, _, hr⟩ := newChainInscriptionTool_eq_ok hn
  obtain ⟨_, _, _, hr'⟩ := newChainInscriptionTool_eq_ok hn'
  have hp := hr.inscribeChain_eq hn
  have hp' := hr'.inscribeChain_eq hn'
  refine ⟨hp'.success, ?_⟩
  simpa only [hp.txChains_eq, hp'.txChains_eq, List.map_map, Function.comp_def,
    List.length_map] using hl

/-- **Relaxing the settings keeps success.** On a library that sizes transactions by their
frame, a request that succeeds succeeds again, with chains of the same number and lengths, when
its fee rates, reveal output value and minimum change, after defaulting, are lowered or kept,
with the same funding outputs, inscriptions and change address. No premise on signatures is
needed: the commit's dry-run signature signs the same amount in both runs. -/
theorem inscribeChain_success_of_relaxed (hsize : FrameSized L network)
    {request request' : InscriptionRequest}
    (hfund : request'.commitTxPrevOutputList = request.commitTxPrevOutputList)
    (hdata : request'.inscriptionDataList = request.inscriptionDataList)
    (hp : request.chainParams.Relaxes request'.chainParams)
    (h : (inscribeChain L network rand request).success = true) :
    (inscribeChain L network rand request').success = true ∧
      (inscribeChain L network rand request').txChains.map List.length =
        (inscribeChain L network rand request).txChains.map List.length := by
  have hsame : List.Forall₂ (FundsAlike L network) request.commitTxPrevOutputList
      request'.commitTxPrevOutputList :=
    hfund ▸ List.forall₂_same.2 fun u _ => ⟨⟨u.amount, le_rfl, rfl⟩, .inr rfl⟩
  obtain ⟨tool, packed, hn, -, -⟩ := inscribeChain_eq_of_success h
  obtain ⟨tool', hn', hl⟩ := newChainInscriptionTool_relax hsize hsame hdata hp hn
  obtain ⟨_, _, _, hr⟩ := newChainInscriptionTool_eq_ok hn
  obtain ⟨_, _, _, hr'⟩ := newChainInscriptionTool_eq_ok hn'
  have hpk := hr.inscribeChain_eq hn
  have hpk' := hr'.inscribeChain_eq hn'
  refine ⟨hpk'.success, ?_⟩
  simpa only [hpk.txChains_eq, hpk'.txChains_eq, List.map_map, Function.comp_def,
    List.length_map] using hl

/-! ## On the reference library -/

/-- A library that sizes transactions as the reference library does sizes them by their frame. -/
theorem frameSized_of_refVsize {L : BitcoinLib RefHash}
    (hL : ∀ t addrs n, L.countAdjustedVsize t addrs n = .ok (refVsize t)) (n : Network) :
    FrameSized L n := fun tx tx' addrs h => by
  rw [hL, hL, refVsize_eq_frame, refVsize_eq_frame, h]

/-- One Taproot funding output of 1200 satoshis for one inscription, raised to 5000. -/
theorem inscribeChain_success_of_raised_at_taproot :
    FrameSized refLib .testnet ∧
      (∀ u ∈ (refRequest [refFunding 1200] 1).commitTxPrevOutputList,
        AmountFreeSignature refLib .testnet u) ∧
      List.Forall₂ PrevOutput.Raised [refFunding 1200] [refFunding 5000] ∧
      (inscribeChain refLib .testnet refDraws (refRequest [refFunding 1200] 1)).success = true ∧
      (inscribeChain refLib .testnet refDraws (refRequest [refFunding 5000] 1)).success = true ∧
      (inscribeChain refLib .testnet refDraws (refRequest [refFunding 5000] 1)).txChains.map List.length =
        (inscribeChain refLib .testnet refDraws (refRequest [refFunding 1200] 1)).txChains.map
          List.length := by
  have hsize : FrameSized refLib .testnet := frameSized_of_refVsize (fun _ _ _ => rfl) _
  have hsig : ∀ u ∈ (refRequest [refFunding 1200] 1).commitTxPrevOutputList,
      AmountFreeSignature refLib .testnet u := fun u hu => by
    rw [List.mem_singleton.1 hu]; exact .inr (.inl rfl)
  have hraise : List.Forall₂ PrevOutput.Raised [refFunding 1200] [refFunding 5000] :=
    .cons ⟨5000, by decide, rfl⟩ .nil
  have hs : (inscribeChain refLib .testnet refDraws (refRequest [refFunding 1200] 1)).success = true := by
    decide
  exact ⟨hsize, hsig, hraise, hs, inscribeChain_success_of_raised hsize hsig hraise hs⟩

/-- The request of `refRequest [refFunding 20000] 1` at three satoshis per virtual byte. -/
def refHighRateRequest : InscriptionRequest :=
  { refRequest [refFunding 20000] 1 with
    commitFeeRate := FeeRate.ofNat 3 (by decide), revealFeeRate := FeeRate.ofNat 3 (by decide) }

/-- One inscription on 20000 satoshis at three satoshis per virtual byte, relaxed to two. -/
theorem inscribeChain_success_of_relaxed_at_rates :
    FrameSized refLib .testnet ∧
      (refRequest [refFunding 20000] 1).commitTxPrevOutputList =
        refHighRateRequest.commitTxPrevOutputList ∧
      (refRequest [refFunding 20000] 1).inscriptionDataList =
        refHighRateRequest.inscriptionDataList ∧
      refHighRateRequest.chainParams.Relaxes (refRequest [refFunding 20000] 1).chainParams ∧
      (inscribeChain refLib .testnet refDraws refHighRateRequest).success = true ∧
      (inscribeChain refLib .testnet refDraws (refRequest [refFunding 20000] 1)).success = true ∧
      (inscribeChain refLib .testnet refDraws (refRequest [refFunding 20000] 1)).txChains.map List.length =
        (inscribeChain refLib .testnet refDraws refHighRateRequest).txChains.map List.length := by
  have hsize : FrameSized refLib .testnet := frameSized_of_refVsize (fun _ _ _ => rfl) _
  have hp : refHighRateRequest.chainParams.Relaxes (refRequest [refFunding 20000] 1).chainParams :=
    ⟨le_rfl, by norm_num [InscriptionRequest.chainParams, refHighRateRequest, refRequest,
      refFeeRate, FeeRate.ofNat, FeeRate.toRat], rfl, le_rfl, by norm_num
      [InscriptionRequest.chainParams, refHighRateRequest, refRequest, refFeeRate, FeeRate.ofNat,
        FeeRate.toRat]⟩
  have hs : (inscribeChain refLib .testnet refDraws refHighRateRequest).success = true := by decide
  exact ⟨hsize, rfl, rfl, hp, hs, inscribeChain_success_of_relaxed hsize rfl rfl hp hs⟩

/-- The reference library with ECDSA signatures whose DER encoding takes 71 or 72 bytes, as the
first byte of the signed hash is even or odd, and a segwit v0 signature hash that is the low byte
of the signed amount. -/
def refDerLib : BitcoinLib RefHash :=
  { refLib with
    hashForWitness := fun _ _ _ v _ => [v.toNat.toUInt8]
    sign := fun h _ => List.replicate (71 + (h.headD 0).toNat % 2) 0x30 }

/-- A native segwit funding output of `amount` satoshis with the key `ww`. -/
def refSegwitFunding (amount : ℕ) : PrevOutput := ⟨"aa", 0, amount, "qx", "ww"⟩

/-- One inscription funded from a native segwit output on `refDerLib`, which sizes transactions
by their frame: the run on 884 satoshis succeeds and the run on 885 fails. On 885 the dry-run
signature is a byte longer, the commit a virtual byte larger, and its fee leaves too little for
the reveal. -/
theorem inscribeChain_fails_of_raised_at_der :
    FrameSized refDerLib .testnet ∧
      ¬ AmountFreeSignature refDerLib .testnet (refSegwitFunding 884) ∧
      List.Forall₂ PrevOutput.Raised [refSegwitFunding 884] [refSegwitFunding 885] ∧
      (inscribeChain refDerLib .testnet refDraws (refRequest [refSegwitFunding 884] 1)).success =
        true ∧
      (inscribeChain refDerLib .testnet refDraws (refRequest [refSegwitFunding 885] 1)).success =
        false := by
  refine ⟨frameSized_of_refVsize (fun _ _ _ => rfl) _, fun h => ?_,
    .cons ⟨885, by decide, rfl⟩ .nil, by decide, by decide⟩
  rcases h with h | h | h
  · exact absurd h (by decide)
  · exact absurd h (by decide)
  · exact absurd (h [0] [1] "ww") (by decide)

end ChainInscription
