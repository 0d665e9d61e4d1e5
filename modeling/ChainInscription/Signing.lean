import ChainInscription.Signer
import ChainInscription.Layout
import ChainInscription.Envelope

/-!
# Signing a plan

`signAllTransactions` on a plan the builder made never throws and never skips a chain, provided
the funding outputs carry keys, which `newChainInscriptionTool` checks before it builds, and the
library's `toOutputScript` turns a `p2tr` address back into its output script. The second
premise is what lets the signer's check pass: a reveal's change output pays to the script of the
next inscription's commit address, and the check compares it with the next context's commit
script.

The signed plan keeps every transaction's outputs and outpoints; only input scripts and
witnesses change. Each commit is what `signTx` makes of it for its funding output, and each
reveal carries a signature in front of the witness of the inscription it reveals.
-/

namespace ChainInscription

variable {η : Type} {L : BitcoinLib η} {network : Network} {rand : RandomDraws}

/-! ## Signing one input -/

/-- A `mapM` that reads one projection of each element sees two lists with the same projections
alike. -/
theorem mapM_congr_of_map {α β γ ε : Type} (f : β → Except ε γ) (g : α → β) :
    ∀ {l l' : List α}, l'.map g = l.map g → l'.mapM (fun a => f (g a)) = l.mapM (fun a => f (g a))
  | [], [], _ => rfl
  | a :: l, a' :: l', h => by
    simp only [List.map_cons, List.cons.injEq] at h
    simp only [List.mapM_cons, h.1, mapM_congr_of_map f g h.2]
  | [], _ :: _, h | _ :: _, [], h => by simp at h

/-- Whether signing a funding input succeeds depends on the key and address of its funding
output and on the addresses of all funding outputs, never on the transaction or an amount. -/
theorem signInput_ok_of_keys {ps ps' : List PrevOutput} {tx tx' a : Transaction η} {i : ℕ}
    {prev prev' : PrevOutput} {aux aux' : Bytes} (h : signInput L network ps tx i prev aux = .ok a)
    (hps : ps'.map (·.address) = ps.map (·.address)) (hk : prev'.privateKey = prev.privateKey)
    (ha : prev'.address = prev.address) :
    ∃ b, signInput L network ps' tx' i prev' aux' = .ok b := by
  unfold signInput at h ⊢
  rw [hk, ha, mapM_congr_of_map (L.toOutputScript · network) _ hps]
  cases hk : L.privateKeyFromWIF prev.privateKey network <;> simp only [hk] at h ⊢
  · cases h
  cases ht : L.getAddressType prev.address network <;> simp only [ht] at h ⊢
  · cases hs : L.toOutputScript prev.address network <;> simp only [hs] at h ⊢
    · cases h
    · exact ⟨_, rfl⟩
  · exact ⟨_, rfl⟩
  · exact ⟨_, rfl⟩
  · cases hs : ps.mapM fun o => L.toOutputScript o.address network <;> simp only [hs] at h ⊢
    · cases h
    · exact ⟨_, rfl⟩
  · exact ⟨_, rfl⟩

/-- Whether signing a funding input succeeds depends on the funding outputs only, never on the
transaction or the draw. -/
theorem signInput_ok_congr {ps : List PrevOutput} {tx tx' a : Transaction η} {i : ℕ}
    {prev : PrevOutput} {aux aux' : Bytes} (h : signInput L network ps tx i prev aux = .ok a) :
    ∃ b, signInput L network ps tx' i prev aux' = .ok b :=
  signInput_ok_of_keys h rfl rfl rfl

/-- A transaction with one input is signed by signing that input. -/
theorem signTx_eq_signInput {tx : Transaction η} (h : tx.ins.length = 1) (prev : PrevOutput)
    (aux : ℕ → Bytes) : signTx L network tx [prev] aux = signInput L network [prev] tx 0 prev (aux 0) := by
  simp [signTx, h, List.foldlM]

/-- A commit is signed, whatever the draws: the estimator's dry run on the commit before its
value was set succeeded, and signing does not look at output values or at the draw. -/
theorem signTx_commit_ok {utxo : PrevOutput} {x : InscriptionTxCtxData} {r : FeeRate} {fee v : ℤ}
    {aux : ℕ → Bytes} (hfee : ChargedFee L network r true none [utxo] aux (initialCommitTx L utxo x) fee)
    (aux' : ℕ → Bytes) :
    ∃ stx, signTx L network ((initialCommitTx L utxo x).setOutputValue 0 v) [utxo] aux' = .ok stx := by
  obtain ⟨clone, -, hc, -⟩ := hfee
  simp only [plausibleClone, if_true] at hc
  rw [signTx_eq_signInput (show (initialCommitTx L utxo x).ins.length = 1 from rfl)] at hc
  rw [signTx_eq_signInput (show ((initialCommitTx L utxo x).setOutputValue 0 v).ins.length = 1
    from rfl)]
  cases hs : signInput L network [utxo] (initialCommitTx L utxo x) 0 utxo (aux 0) with
  | error e => simp [hs, Except.toOption] at hc
  | ok a => exact signInput_ok_congr hs

theorem signTx_signedAs {tx stx : Transaction η} {prev : PrevOutput} {aux : ℕ → Bytes}
    (h : signTx L network tx [prev] aux = .ok stx) (h1 : tx.ins.length = 1) :
    SignedAs L network tx 0 prev stx :=
  signInput_ok (by rwa [signTx_eq_signInput h1] at h)

/-- Signing an input keeps the outputs, the outpoints and the number of inputs. -/
theorem SignedAs.outs_eq {tx stx : Transaction η} {i : ℕ} {prev : PrevOutput}
    (h : SignedAs L network tx i prev stx) : stx.outs = tx.outs ∧ stx.outpoints = tx.outpoints ∧
      stx.ins.length = tx.ins.length := by
  cases h <;> simp

/-- Whether `signTx` succeeds depends on the number of inputs and on the keys and addresses of
the funding outputs, never on the rest of the transaction or on an amount; it keeps the outputs. -/
theorem signTx_ok_congr {ps ps' : List PrevOutput} {tx tx' a : Transaction η}
    {aux aux' : ℕ → Bytes} (h : signTx L network tx ps aux = .ok a)
    (hps : List.Forall₂ (fun u u' : PrevOutput => u'.privateKey = u.privateKey ∧
      u'.address = u.address) ps ps')
    (hlen : tx'.ins.length = tx.ins.length) :
    a.outs = tx.outs ∧ ∃ b, signTx L network tx' ps' aux' = .ok b ∧ b.outs = tx'.outs := by
  have haddr : ps'.map (·.address) = ps.map (·.address) := by
    clear h
    induction hps with
    | nil => rfl
    | cons hu _ ih => simp [hu.2, ih]
  unfold signTx at h ⊢
  rw [hlen]
  clear hlen
  generalize List.range tx.ins.length = l at h ⊢
  induction l generalizing tx tx' with
  | nil =>
    simp only [List.foldlM_nil, Except.pure_eq_ok] at h
    exact ⟨by rw [h], tx', rfl, rfl⟩
  | cons i l ih =>
    simp only [List.foldlM_cons] at h ⊢
    obtain ⟨t₁, h₁, h⟩ := Except.bind_eq_ok.1 h
    cases hp : ps[i]? with
    | none => simp only [hp] at h₁; cases h₁
    | some prev =>
      simp only [hp] at h₁
      obtain ⟨prev', hp', hk, ha⟩ := exists_getElem?_of_forall₂ hps hp
      obtain ⟨b₁, hb₁⟩ : ∃ b, signInput L network ps' tx' i prev' (aux' i) = .ok b :=
        signInput_ok_of_keys h₁ haddr hk ha
      obtain ⟨houts, b, hb, hbouts⟩ := ih h
      refine ⟨houts.trans (signInput_ok h₁).outs_eq.1, b, ?_, hbouts.trans
        (signInput_ok hb₁).outs_eq.1⟩
      simp only [hp', hb₁, Except.ok_bind, hb]

/-! ## Signing one reveal -/

variable (L) in
/-- The signer's reveal branch succeeds when the input spends an output of the previous
transaction, the mapping names a context for the reveal, and the spent output pays to that
context's commit script; it then puts the signature in front of the context's witness. -/
theorem signReveal_eq {tool : ChainInscriptionTool η} {c t : ℕ} {prevOuts : List Output}
    (tx : Transaction η) {input : Input η} {o : Output} {x : InscriptionTxCtxData}
    (hin : tx.ins[0]? = some input) (ho : prevOuts[input.index]? = some o)
    (hx : contextOf tool c t = some x) (hs : x.commitTxAddressPkScript = o.script) (aux : Bytes) :
    signReveal L tool c t prevOuts tx aux = .ok (tx.setWitness 0
      ((L.schnorrSign (L.hashForWitnessV1 tx 0 [o.script] [o.value] sighashDefault
        (some x.hash)) x.privateKey aux).bytes :: x.witness)) := by
  obtain ⟨hlt, hget⟩ := List.getElem?_eq_some_iff.1 ho
  unfold contextOf at hx
  obtain ⟨i, hi, hxi⟩ := Option.bind_eq_some.1 hx
  simp only [signReveal, hin, pure_bind, ge_iff_le, not_le.2 hlt, dite_false, List.get_eq_getElem,
    hget, hi, hxi, hs, ne_eq, not_true_eq_false, if_false]
  rfl

variable (L) in
/-- `stx` is the reveal `tx` as `signReveal` signs it at position `t` of chain `c` with the
draw `aux`: its input spends an output of `prevOuts` that pays to the commit script of the
context the mapping gives, and carries the Schnorr signature of that context's key, over the
input and the context's leaf, in front of the context's witness. -/
def SignedReveal (tool : ChainInscriptionTool η) (c t : ℕ) (prevOuts : List Output)
    (tx : Transaction η) (aux : Bytes) (stx : Transaction η) : Prop :=
  ∃ (input : Input η) (o : Output) (x : InscriptionTxCtxData), tx.ins[0]? = some input ∧
    prevOuts[input.index]? = some o ∧ contextOf tool c t = some x ∧
    x.commitTxAddressPkScript = o.script ∧
    stx = tx.setWitness 0 ((L.schnorrSign (L.hashForWitnessV1 tx 0 [o.script] [o.value]
      sighashDefault (some x.hash)) x.privateKey aux).bytes :: x.witness)

/-- A reveal the signer accepted is signed as `SignedReveal` says. -/
theorem signReveal_eq_ok {tool : ChainInscriptionTool η} {c t : ℕ} {prevOuts : List Output}
    {tx stx : Transaction η} {aux : Bytes} (h : signReveal L tool c t prevOuts tx aux = .ok stx) :
    SignedReveal L tool c t prevOuts tx aux stx := by
  unfold signReveal at h
  cases hin : tx.ins[0]? with
  | none => simp only [hin] at h; cases h
  | some input =>
    simp only [hin, pure_bind] at h
    split at h
    · cases h
    rename_i hv
    split at h
    · cases h
    rename_i i hm
    split at h
    · cases h
    rename_i x hx
    split at h
    · cases h
    rename_i hs
    simp only [Except.pure_eq_ok, List.get_eq_getElem] at h
    exact ⟨input, _, x, hin, List.getElem?_eq_getElem _, by unfold contextOf; rw [hm]; exact hx,
      not_not.1 hs, h.symm⟩

/-! ## Signing a chain -/

variable (L network) in
/-- `signed` is the chain `chain`, built on `utxo` from the inscriptions `xs`, once signed: the
commit as `signTx` signs it for the funding output with the draws `auxRand`, and reveal `t + 1`
with a signature in front of the witness of inscription `t`, whose recipient its first output
pays. -/
structure SignedChain (utxo : PrevOutput) (auxRand : ℕ → Bytes) (xs : List InscriptionTxCtxData)
    (chain signed : List (Transaction η)) : Prop where
  length_eq : signed.length = chain.length
  commit : ∀ tx stx, chain[0]? = some tx → signed[0]? = some stx →
    signTx L network tx [utxo] auxRand = .ok stx
  reveal : ∀ (t : ℕ) (x : InscriptionTxCtxData) (tx stx : Transaction η), xs[t]? = some x →
    chain[t + 1]? = some tx →
    signed[t + 1]? = some stx →
    ∃ sig : SchnorrSig, stx = tx.setWitness 0 (sig.bytes :: x.witness)

theorem signChain_cons_zero {tool : ChainInscriptionTool η} {c : ℕ} {utxo : PrevOutput}
    {tx stx : Transaction η} {rest : List (Transaction η)} {prevOuts : List Output}
    (h : signTx L network tx [utxo] (rand.signing c 0) = .ok stx) :
    signChain L network rand tool c utxo (tx :: rest) 0 prevOuts =
      (signChain L network rand tool c utxo rest 1 stx.outs).map (stx :: ·) := by
  simp only [signChain, if_true, rethrowWith, h, Except.mapError, Nat.zero_add, Except.ok_bind]
  cases signChain L network rand tool c utxo rest 1 stx.outs <;> rfl

theorem signChain_cons_reveal {tool : ChainInscriptionTool η} {c : ℕ} {utxo : PrevOutput}
    {tx stx : Transaction η} {rest : List (Transaction η)} {t : ℕ} {prevOuts : List Output}
    (ht : 0 < t) (h : signReveal L tool c t prevOuts tx (rand.signing c t 0) = .ok stx) :
    signChain L network rand tool c utxo (tx :: rest) t prevOuts =
      (signChain L network rand tool c utxo rest (t + 1) stx.outs).map (stx :: ·) := by
  simp only [signChain, Nat.pos_iff_ne_zero.1 ht, if_false, rethrowWith, h, Except.mapError,
    Except.ok_bind]
  cases signChain L network rand tool c utxo rest (t + 1) stx.outs <;> rfl

/-- The signer's pass over the reveals of a run, from transaction `t` of chain `c` on, when the
output the first reveal spends pays to its inscription's commit script, every change output to
the next one's, and the mapping gives every reveal its inscription. -/
theorem RevealsBuilt.signChain_eq {utxo : PrevOutput} {first : InscriptionTxCtxData}
    {p : ChainParams} {prev : Transaction η} {v : ℤ} {k : ℕ} {xs : List InscriptionTxCtxData}
    {txs : List (Transaction η)} {fees : List ℤ}
    (h : RevealsBuilt L network utxo first p prev v k xs txs fees)
    (tool : ChainInscriptionTool η) (c : ℕ) (initialUtxo : PrevOutput) {t : ℕ} (ht : 0 < t)
    (hlaw : ∀ x ∈ xs, L.toOutputScript x.commitTxAddress network = .ok x.commitTxAddressPkScript)
    (hout : ∀ x, xs.head? = some x → ∃ w, prev.outs[k]? = some ⟨x.commitTxAddressPkScript, w⟩)
    (hctx : ∀ j x, xs[j]? = some x → contextOf tool c (t + j) = some x) :
    ∃ signed, signChain L network rand tool c initialUtxo txs t prev.outs = .ok signed ∧
      signed.length = txs.length ∧
      ∀ (j : ℕ) (x : InscriptionTxCtxData) (tx stx : Transaction η), xs[j]? = some x →
        txs[j]? = some tx → signed[j]? = some stx →
        ∃ sig : SchnorrSig, stx = tx.setWitness 0 (sig.bytes :: x.witness) := by
  induction h generalizing t with
  | nil => exact ⟨[], rfl, rfl, fun _ _ _ _ _ h => by simp at h⟩
  | @keep prev v k x rest cs fee txs fees hcs hfee hmin tail ih =>
    set tx := (newRevealTx L prev k x p.revealOutValue cs).setOutputValue 1
      (v - p.revealOutValue - fee) with htx
    obtain ⟨w, hw⟩ := hout x rfl
    have hsign := signReveal_eq L tx rfl hw (by simpa using hctx 0 x (by simp)) rfl
      (rand.signing c t 0)
    have hlaw' : ∀ y ∈ rest, L.toOutputScript y.commitTxAddress network =
        .ok y.commitTxAddressPkScript := fun y hy => hlaw y (List.mem_cons_of_mem _ hy)
    have hout' : ∀ y, rest.head? = some y →
        ∃ w, tx.outs[1]? = some ⟨y.commitTxAddressPkScript, w⟩ := by
      intro y hy
      obtain _ | ⟨y', rest'⟩ := rest
      · simp at hy
      have hy' : y' = y := by simpa using hy
      have hcs' : L.toOutputScript y.commitTxAddress network = .ok cs := by
        simpa [changeAddressFor, hy'] using hcs
      rw [hlaw' y (by simp [hy']), Except.ok.injEq] at hcs'
      exact ⟨v - p.revealOutValue - fee, by simp [htx, hcs']⟩
    obtain ⟨signed, hs, hl, hw'⟩ := @ih (t + 1) (by omega) hlaw' hout'
      (fun j y hy => by
        simpa [Nat.add_assoc, Nat.add_comm 1] using hctx (j + 1) y (by simpa using hy))
    refine ⟨_ :: signed,
      by rw [signChain_cons_reveal ht hsign, Transaction.setWitness_outs, hs]; rfl, by simp [hl],
      fun j y tx' stx hy htx' hstx => ?_⟩
    cases j with
    | zero =>
      simp only [List.getElem?_cons_zero, Option.some.injEq] at hy htx' hstx
      subst hy htx' hstx
      exact ⟨_, rfl⟩
    | succ j =>
      exact hw' j y tx' stx (by simpa using hy) (by simpa using htx') (by simpa using hstx)
  | @drop prev v k x cs fee f hcs hfee hf hshort hpaid =>
    obtain ⟨w, hw⟩ := hout x rfl
    have hsign := signReveal_eq L (newRevealTx L prev k x p.revealOutValue cs).popOutput rfl hw
      (by simpa using hctx 0 x (by simp)) rfl (rand.signing c t 0)
    refine ⟨[_], by rw [signChain_cons_reveal ht hsign]; rfl, by simp,
      fun j y tx' stx hy htx' hstx => ?_⟩
    cases j with
    | zero =>
      simp only [List.getElem?_cons_zero, Option.some.injEq] at hy htx' hstx
      subst hy htx' hstx
      exact ⟨_, rfl⟩
    | succ j => simp at htx'

/-- The signer's pass over a chain the builder made, when every commit address turns back into
its commit script and the mapping gives every reveal its inscription. -/
theorem ChainBuilt.signChain_eq {utxo : PrevOutput} {p : ChainParams}
    {aux : ℕ → Bytes} {xs : List InscriptionTxCtxData} {chain : List (Transaction η)}
    {fees : List ℤ} (h : ChainBuilt L network utxo p aux xs chain fees)
    (tool : ChainInscriptionTool η) (c : ℕ)
    (hlaw : ∀ x ∈ xs, L.toOutputScript x.commitTxAddress network = .ok x.commitTxAddressPkScript)
    (hctx : ∀ j x, xs[j]? = some x → contextOf tool c (j + 1) = some x) :
    ∃ signed, signChain L network rand tool c utxo chain 0 [] = .ok signed ∧
      SignedChain L network utxo (rand.signing c 0) xs chain signed := by
  cases h with
  | @mk first rest commitFee txs fees hfee hpaid reveals =>
    obtain ⟨stx, hstx⟩ : ∃ stx, signTx L network ((initialCommitTx L utxo first).setOutputValue 0
        (utxo.amount - commitFee)) [utxo] (rand.signing c 0) = .ok stx :=
      signTx_commit_ok hfee _
    have houts := (signTx_signedAs hstx rfl).outs_eq.1
    obtain ⟨signed, hs, hl, hw⟩ := reveals.signChain_eq tool c utxo Nat.one_pos hlaw
      (fun x hx => ⟨utxo.amount - commitFee, by simp_all⟩)
      (fun j x hx => by simpa [Nat.add_comm 1] using hctx j x hx)
    refine ⟨stx :: signed, by rw [signChain_cons_zero hstx, houts, hs]; rfl,
      ⟨by simp [hl], fun tx stx' htx hstx' => ?_, fun t x tx stx' hx htx hstx' =>
        hw t x tx stx' hx (by simpa using htx) (by simpa using hstx')⟩⟩
    simp only [List.getElem?_cons_zero, Option.some.injEq] at htx hstx'
    rw [← htx, ← hstx']
    exact hstx

theorem mem_of_mem_segment {α : Type} {xs : List α} {k : ℕ} {x : α} (h : x ∈ segment xs k) :
    x ∈ xs := by
  rw [segment_eq] at h
  exact List.mem_of_mem_drop (List.mem_of_mem_take h)

/-- The signer's pass over the chains of a plan from chain `k` on. -/
theorem PlanBuilt.signChains_eq {utxos : List PrevOutput} {xs : List InscriptionTxCtxData}
    {p : ChainParams} {rand₀ : RandomDraws} {k : ℕ} {chains : List (List (Transaction η))}
    {feess : List (List ℤ)} (h : PlanBuilt L network utxos xs p rand₀ k chains feess)
    (tool : ChainInscriptionTool η)
    (hkeys : ∀ u ∈ utxos, u.privateKey ≠ "")
    (hlaw : ∀ x ∈ xs, L.toOutputScript x.commitTxAddress network = .ok x.commitTxAddressPkScript)
    (hctx : ∀ j i x, j < chains.length → (segment xs (k + j))[i]? = some x →
      contextOf tool (k + j) (i + 1) = some x) :
    ∃ signed, signChains L network rand tool utxos chains k = .ok signed ∧
      signed.length = chains.length ∧
      ∀ j chain schain, chains[j]? = some chain → signed[j]? = some schain →
        ∃ utxo, utxos[k + j]? = some utxo ∧
          SignedChain L network utxo (rand.signing (k + j) 0) (segment xs (k + j)) chain
            schain := by
  induction h with
  | done => exact ⟨[], rfl, rfl, fun _ _ _ h => by simp at h⟩
  | @chain k utxo chain fees chains feess hk hu hc tail ih =>
    have hkey := hkeys utxo (List.mem_iff_getElem?.2 ⟨k, hu⟩)
    obtain ⟨schain, hs, hsc⟩ : ∃ schain, signChain L network rand tool k utxo chain 0 [] =
        .ok schain ∧ _ := hc.signChain_eq tool k
      (fun x hx => hlaw x (mem_of_mem_segment hx))
      (fun i x hx => by simpa using hctx 0 i x (by simp) (by simpa using hx))
    obtain ⟨signed, hss, hl, hw⟩ := ih (fun j i x hj hx => by
      simpa [Nat.add_assoc, Nat.add_comm 1] using hctx (j + 1) i x (by simpa using hj)
        (by simpa [Nat.add_assoc, Nat.add_comm 1] using hx))
    refine ⟨schain :: signed, ?_, by simp [hl], fun j chain' schain' hj hsj => ?_⟩
    · simp only [signChains, hu, hkey, if_false, hs, Except.ok_bind, hss]
      rfl
    · cases j with
      | zero =>
        simp only [List.getElem?_cons_zero, Option.some.injEq] at hj hsj
        subst hj hsj
        exact ⟨utxo, by simpa using hu, by simpa using hsc⟩
      | succ j =>
        obtain ⟨u, hu', hsc'⟩ := hw j chain' schain' (by simpa using hj) (by simpa using hsj)
        exact ⟨u, by simpa [Nat.add_assoc, Nat.add_comm 1] using hu',
          by simpa [Nat.add_assoc, Nat.add_comm 1] using hsc'⟩

theorem signAllTransactions_eq {tool : ChainInscriptionTool η} {utxos : List PrevOutput}
    {signed : List (List (Transaction η))}
    (h : signChains L network rand tool utxos tool.txChains 0 = .ok signed) :
    signAllTransactions L network rand tool utxos = .ok { tool with txChains := signed } := by
  unfold signAllTransactions
  by_cases h0 : tool.txChains.length = 0
  · have hnil := List.eq_nil_of_length_eq_zero h0
    rw [hnil] at h
    simp only [signChains, Except.pure_eq_ok] at h
    subst h
    rw [if_pos h0]
    cases tool
    simp_all
  · rw [if_neg h0, h]
    rfl

/-! ## What a successful signer did -/

/-- A chain the signer's pass accepted from transaction `t` on: transaction `0` signed by
`signTx` for the funding output, every later one signed as `SignedReveal` says against the
outputs of the transaction signed before it. -/
theorem signChain_eq_ok {tool : ChainInscriptionTool η} {c : ℕ} {utxo : PrevOutput}
    {chain : List (Transaction η)} {t : ℕ} {prevOuts : List Output}
    {signed : List (Transaction η)}
    (h : signChain L network rand tool c utxo chain t prevOuts = .ok signed) :
    signed.length = chain.length ∧ ∀ (j : ℕ) (tx stx : Transaction η), chain[j]? = some tx →
      signed[j]? = some stx → (t + j = 0 ∧ signTx L network tx [utxo] (rand.signing c 0) = .ok stx) ∨
        (0 < t + j ∧ ∃ outs, (prevOuts :: signed.map (·.outs))[j]? = some outs ∧
          SignedReveal L tool c (t + j) outs tx (rand.signing c (t + j) 0) stx) := by
  induction chain generalizing t prevOuts signed with
  | nil =>
    simp only [signChain, Except.pure_eq_ok] at h
    subst h
    exact ⟨rfl, fun _ _ _ h => by simp at h⟩
  | cons tx rest ih =>
    simp only [signChain] at h
    obtain ⟨stx, hstx, h⟩ := Except.bind_eq_ok.1 h
    obtain ⟨srest, hrest, h⟩ := Except.bind_eq_ok.1 h
    simp only [Except.pure_eq_ok] at h
    subst h
    rw [rethrowWith_eq_ok] at hstx
    obtain ⟨hl, hw⟩ := ih hrest
    refine ⟨by simp [hl], fun j tx' stx' htx hst => ?_⟩
    cases j with
    | zero =>
      simp only [List.getElem?_cons_zero, Option.some.injEq] at htx hst
      subst htx hst
      by_cases ht : t = 0
      · simp only [ht, if_true] at hstx
        exact .inl ⟨by omega, hstx⟩
      · simp only [ht, if_false] at hstx
        exact .inr ⟨by omega, prevOuts, rfl, by simpa using signReveal_eq_ok hstx⟩
    | succ j =>
      rw [show t + (j + 1) = t + 1 + j by omega]
      exact (hw j tx' stx' (by simpa using htx) (by simpa using hst)).imp
        (fun h => ⟨by omega, h.2⟩) fun ⟨h0, outs, ho, hs⟩ => ⟨h0, outs, by simpa using ho, hs⟩

/-- The chains the signer's pass accepted from chain `k` on: every chain with a funding output
that has a key went through `signChain`. -/
theorem signChains_eq_ok {tool : ChainInscriptionTool η} {utxos : List PrevOutput}
    {chains : List (List (Transaction η))} {k : ℕ} {signed : List (List (Transaction η))}
    (h : signChains L network rand tool utxos chains k = .ok signed) :
    signed.length = chains.length ∧ ∀ j chain schain, chains[j]? = some chain →
      signed[j]? = some schain → ∀ u, utxos[k + j]? = some u → u.privateKey ≠ "" →
        signChain L network rand tool (k + j) u chain 0 [] = .ok schain := by
  induction chains generalizing k signed with
  | nil =>
    simp only [signChains, Except.pure_eq_ok] at h
    subst h
    exact ⟨rfl, fun _ _ _ h => by simp at h⟩
  | cons chain rest ih =>
    rw [signChains] at h
    obtain ⟨schain, hs, srest, hrest, rfl⟩ : ∃ schain, (∀ u, utxos[k]? = some u →
        u.privateKey ≠ "" → signChain L network rand tool k u chain 0 [] = .ok schain) ∧
        ∃ srest, signChains L network rand tool utxos rest (k + 1) = .ok srest ∧
          signed = schain :: srest := by
      split at h
      all_goals try split at h
      all_goals
        obtain ⟨y, hy, h⟩ := Except.bind_eq_ok.1 h
        obtain ⟨srest, hrest, h⟩ := Except.bind_eq_ok.1 h
        simp only [Except.pure_eq_ok] at h
        subst h
        refine ⟨y, fun u hu hk => ?_, srest, hrest, rfl⟩
      · rename_i heq _
        cases hu.symm.trans heq
      · rename_i heq hk0 _
        cases hu.symm.trans heq
        exact absurd hk0 hk
      · rename_i heq _ _
        cases hu.symm.trans heq
        exact hy
    obtain ⟨hl, hw⟩ := ih hrest
    refine ⟨by simp [hl], fun j chain' schain' hc hsc u hu hkey => ?_⟩
    cases j with
    | zero =>
      simp only [List.getElem?_cons_zero, Option.some.injEq] at hc hsc
      subst hc hsc
      exact hs u hu hkey
    | succ j =>
      rw [show k + (j + 1) = k + 1 + j by omega] at hu ⊢
      exact hw j chain' schain' (by simpa using hc) (by simpa using hsc) u hu hkey

theorem signAllTransactions_eq_ok {tool tool' : ChainInscriptionTool η} {utxos : List PrevOutput}
    (h : signAllTransactions L network rand tool utxos = .ok tool') :
    ∃ signed, signChains L network rand tool utxos tool.txChains 0 = .ok signed ∧
      tool' = { tool with txChains := signed } := by
  unfold signAllTransactions at h
  by_cases h0 : tool.txChains.length = 0
  · simp only [h0, if_true, Except.pure_eq_ok] at h
    subst h
    have hnil := List.eq_nil_of_length_eq_zero h0
    refine ⟨[], by simp [hnil, signChains], ?_⟩
    cases tool
    simp_all
  · rw [if_neg h0] at h
    obtain ⟨signed, hs, h⟩ := Except.bind_eq_ok.1 h
    simp only [Except.pure_eq_ok] at h
    exact ⟨signed, hs, h.symm⟩

/-! ## Signing a plan -/

/-- What the signer checks of reveal `t + 1` of chain `c`, spending from `pred`: its input
spends an output of `pred`, the mapping names a context for it, and the spent output pays to
that context's commit script. -/
def RevealSignable (tool : ChainInscriptionTool η) (c t : ℕ) (pred tx : Transaction η) : Prop :=
  ∃ input o x, tx.ins[0]? = some input ∧ pred.outs[input.index]? = some o ∧
    contextOf tool c (t + 1) = some x ∧ x.commitTxAddressPkScript = o.script

variable (L network rand) in
/-- `signed` is the plan `plan` once signed with the draws `rand`: chain `c` has funding output
`c`, with a key; its commit is what `signTx` makes of it for that output; each reveal carries a
signature in front of the witness of the context the mapping gives it, the inscription whose
recipient the reveal pays. -/
structure SignedPlan (utxos : List PrevOutput) (plan : ChainInscriptionTool η)
    (signed : List (List (Transaction η))) : Prop where
  length_eq : signed.length = plan.txChains.length
  chain_eq : ∀ c chain schain, plan.txChains[c]? = some chain → signed[c]? = some schain →
    ∃ utxo, utxos[c]? = some utxo ∧ utxo.privateKey ≠ "" ∧ schain.length = chain.length ∧
      (∀ tx stx, chain[0]? = some tx → schain[0]? = some stx →
        signTx L network tx [utxo] (rand.signing c 0) = .ok stx) ∧
      (∀ (t : ℕ) (tx stx : Transaction η), chain[t + 1]? = some tx → schain[t + 1]? = some stx →
        ∃ (x : InscriptionTxCtxData) (sig : SchnorrSig), contextOf plan c (t + 1) = some x ∧
          tx.outs.head?.map (·.script) = some x.revealPkScript ∧
          stx = tx.setWitness 0 (sig.bytes :: x.witness))

variable (L network rand) in
/-- The signer on a plan: every reveal passes the signer's checks, and `signAllTransactions`
returns the plan with its chains signed. -/
def SignsPlan (utxos : List PrevOutput) (plan : ChainInscriptionTool η) : Prop :=
  (∀ c chain t pred tx, plan.txChains[c]? = some chain → chain[t]? = some pred →
    chain[t + 1]? = some tx → RevealSignable plan c t pred tx) ∧
  ∃ signed, signAllTransactions L network rand plan utxos = .ok { plan with txChains := signed } ∧
    SignedPlan L network rand utxos plan signed

section Planned
variable {utxos : List PrevOutput} {p : ChainParams} {rand₀ : RandomDraws}
  {chains : List (List (Transaction η))} {feess : List (List ℤ)} {tool : ChainInscriptionTool η}

/-- The signer on a plan recorded in a fresh tool, from funding outputs with keys and contexts
whose commit addresses turn back into their commit scripts. -/
theorem signsPlan_planned (hf : tool.Fresh)
    (h : PlanBuilt L network utxos tool.inscriptionTxCtxDataList p rand₀ 0 chains feess)
    (hkeys : ∀ u ∈ utxos, u.privateKey ≠ "")
    (hlaw : ∀ x ∈ tool.inscriptionTxCtxDataList,
      L.toOutputScript x.commitTxAddress network = .ok x.commitTxAddressPkScript) :
    SignsPlan L network rand utxos (planned tool 0 chains feess) := by
  have hchains : (planned tool 0 chains feess).txChains = chains := by
    simp [planned, hf.txChains_eq]
  refine ⟨fun c chain t pred tx hc hp ht => ?_, ?_⟩
  · rw [hchains] at hc
    obtain ⟨_, _, pred', s, w, x, _, _, hp', -, hx, hctx, -, hout, h0, h1, hs⟩ :=
      h.reveal_getElem hf hc ht
    rw [hp] at hp'
    cases hp'
    have hscript : s = x.commitTxAddressPkScript := by
      rcases Nat.eq_zero_or_pos t with rfl | ht0
      · exact h0 rfl
      · have := h1 ht0
        rw [hlaw x (List.mem_iff_getElem?.2 ⟨_, hx⟩), Except.ok.injEq] at this
        exact this.symm
    exact ⟨⟨L.getHash pred, if t = 0 then 0 else 1, [], defaultSequenceNum, []⟩, ⟨s, w⟩, x,
      by rw [hs.ins_eq]; rfl, hout, hctx, hscript.symm⟩
  · obtain ⟨signed, hs, hl, hw⟩ := h.signChains_eq (planned tool 0 chains feess) hkeys hlaw
      (fun j i x hj hx => by simpa using contextOf_planned_segment hf h hj (by simpa using hx))
    refine ⟨signed, signAllTransactions_eq (by rw [hchains]; exact hs),
      ⟨by rw [hchains, hl], fun c chain schain hc hsc => ?_⟩⟩
    rw [hchains] at hc
    obtain ⟨utxo, hu, hsc'⟩ := hw c chain schain hc hsc
    rw [Nat.zero_add] at hu hsc'
    refine ⟨utxo, hu, hkeys utxo (List.mem_iff_getElem?.2 ⟨c, hu⟩), hsc'.length_eq, hsc'.commit,
      fun t tx stx ht hst => ?_⟩
    obtain ⟨_, _, _, _, _, x, _, _, _, hxs, -, hctx, -, -, -, -, hstep⟩ := h.reveal_getElem hf hc ht
    obtain ⟨sig, rfl⟩ := hsc'.reveal t x tx stx hxs ht hst
    exact ⟨x, sig, hctx, by simp [hstep.outs_head], rfl⟩

/-- What `signAllTransactions` returned on a plan recorded in a fresh tool, from funding outputs
with keys: the plan with every chain signed. This reads a run that succeeded, so unlike
`signsPlan_planned` it needs no law of the library. -/
theorem signedPlan_of_eq_ok {tool' : ChainInscriptionTool η} (hf : tool.Fresh)
    (h : PlanBuilt L network utxos tool.inscriptionTxCtxDataList p rand₀ 0 chains feess)
    (hkeys : ∀ u ∈ utxos, u.privateKey ≠ "")
    (hs : signAllTransactions L network rand (planned tool 0 chains feess) utxos = .ok tool') :
    ∃ signed, tool' = { planned tool 0 chains feess with txChains := signed } ∧
      SignedPlan L network rand utxos (planned tool 0 chains feess) signed := by
  have hchains : (planned tool 0 chains feess).txChains = chains := by
    simp [planned, hf.txChains_eq]
  obtain ⟨signed, hsc, rfl⟩ := signAllTransactions_eq_ok hs
  rw [hchains] at hsc
  obtain ⟨hl, hw⟩ := signChains_eq_ok hsc
  refine ⟨signed, rfl, by rw [hchains, hl], fun c chain schain hc hsch => ?_⟩
  rw [hchains] at hc
  obtain ⟨utxo, -, hu, -⟩ := h.getElem hc
  rw [Nat.zero_add] at hu
  have hkey := hkeys utxo (List.mem_iff_getElem?.2 ⟨c, hu⟩)
  obtain ⟨hlen, hsig⟩ :=
    signChain_eq_ok (hw c chain schain hc hsch utxo (by rwa [Nat.zero_add]) hkey)
  refine ⟨utxo, hu, hkey, hlen, fun tx stx htx hstx => ?_, fun t tx stx htx hstx => ?_⟩
  · rcases hsig 0 tx stx htx hstx with ⟨-, h0⟩ | ⟨h0, -⟩
    · simpa using h0
    · omega
  · rcases hsig (t + 1) tx stx htx hstx with ⟨h0, -⟩ | ⟨-, -, -, -, -, x, -, -, hx, -, rfl⟩
    · omega
    obtain ⟨_, _, _, _, _, x', _, _, _, _, _, hctx, -, -, -, -, hstep⟩ := h.reveal_getElem hf hc htx
    simp only [Nat.zero_add, hctx, Option.some.injEq] at hx
    subst hx
    exact ⟨x', _, hctx, by simp [hstep.outs_head], rfl⟩

/-- What `signAllTransactions` did to a reveal of a plan recorded in a fresh tool, from funding
outputs with keys: it signed it as `SignedReveal` says, against the outputs of the transaction
before it as returned. Like `signedPlan_of_eq_ok`, this needs no law of the library: the
signer's own check saw the spent output pay to the context's commit script. -/
theorem signedReveal_of_eq_ok {tool' : ChainInscriptionTool η} (hf : tool.Fresh)
    (h : PlanBuilt L network utxos tool.inscriptionTxCtxDataList p rand₀ 0 chains feess)
    (hkeys : ∀ u ∈ utxos, u.privateKey ≠ "")
    (hs : signAllTransactions L network rand (planned tool 0 chains feess) utxos = .ok tool')
    {c t : ℕ} {chain schain : List (Transaction η)} {tx spred stx : Transaction η}
    (hc : chains[c]? = some chain) (hsc : tool'.txChains[c]? = some schain)
    (htx : chain[t + 1]? = some tx) (hp : schain[t]? = some spred)
    (hst : schain[t + 1]? = some stx) :
    SignedReveal L (planned tool 0 chains feess) c (t + 1) spred.outs tx (rand.signing c (t + 1) 0)
      stx := by
  have hchains : (planned tool 0 chains feess).txChains = chains := by
    simp [planned, hf.txChains_eq]
  obtain ⟨signed, hsigned, rfl⟩ := signAllTransactions_eq_ok hs
  rw [hchains] at hsigned
  obtain ⟨-, hw⟩ := signChains_eq_ok hsigned
  obtain ⟨utxo, -, hu, -⟩ := h.getElem hc
  rw [Nat.zero_add] at hu
  obtain ⟨-, hsig⟩ := signChain_eq_ok (hw c chain schain hc (by simpa using hsc) utxo
    (by rwa [Nat.zero_add]) (hkeys utxo (List.mem_iff_getElem?.2 ⟨c, hu⟩)))
  rcases hsig (t + 1) tx stx htx hst with ⟨h0, -⟩ | ⟨-, outs, ho, hr⟩
  · omega
  · simp only [List.getElem?_cons_succ, List.getElem?_map, hp, Option.map_some',
      Option.some.injEq] at ho
    subst ho
    simpa using hr

end Planned

theorem signsPlan_of_nil {utxos : List PrevOutput} {plan : ChainInscriptionTool η}
    (h : plan.txChains = []) : SignsPlan L network rand utxos plan :=
  ⟨fun _ _ _ _ _ hc => by simp [h] at hc, [], signAllTransactions_eq (by simp [h, signChains]),
    ⟨by simp [h], fun _ _ _ hc => by simp [h] at hc⟩⟩

/-- **Signing a plan never fails.** Take a plan built without error by
`buildEnhancedInscriptionChains` on a fresh tool whose contexts `createInscriptionTxCtxData`
made, from funding outputs that carry keys, on a library whose `toOutputScript` turns a `p2tr`
address back into its output script. Every reveal passes the signer's checks: it spends an
output of the transaction before it, the mapping gives it a context, and the spent output pays
to that context's commit script. And `signAllTransactions` signs every chain: the commit with
`signTx` for its funding output, each reveal with a signature in front of the witness of the
inscription it reveals. -/
theorem signAllTransactions_plan_ok {tool plan : ChainInscriptionTool η}
    {utxos : List PrevOutput} {p : ChainParams}
    (hp2tr : ∀ pk s, L.toOutputScript (L.p2tr pk s network).address network =
      .ok (L.p2tr pk s network).output)
    (hctxs : ∀ x ∈ tool.inscriptionTxCtxDataList,
      ∃ d wif, createInscriptionTxCtxData L network d wif = .ok x)
    (hkeys : ∀ u ∈ utxos, u.privateKey ≠ "") (hf : tool.Fresh)
    (h : buildEnhancedInscriptionChains L network rand tool utxos p = .ok plan) :
    SignsPlan L network rand utxos plan := by
  by_cases hu : utxos = []
  · simp only [buildEnhancedInscriptionChains, hu, List.length_nil, if_true,
      Except.pure_eq_ok] at h
    exact signsPlan_of_nil (h ▸ hf.txChains_eq)
  obtain ⟨chains, feess, hpb, rfl⟩ := buildEnhancedInscriptionChains_eq_ok hf.txChains_eq hu h
  refine signsPlan_planned hf hpb hkeys fun x hx => ?_
  obtain ⟨d, wif, hc⟩ := hctxs x hx
  exact createInscriptionTxCtxData_commitScript hp2tr hc

/-- The signer on the sample build of one inscription on one funding output. -/
theorem signAllTransactions_plan_ok_at_one :
    ∃ plan, buildEnhancedInscriptionChains refLib .testnet refDraws refSampleTool
      [⟨"aa", 0, 20000, "p5", "w"⟩] refSampleParams = .ok plan ∧
      SignsPlan refLib .testnet refDraws [⟨"aa", 0, 20000, "p5", "w"⟩] plan :=
  ⟨_, rfl, signAllTransactions_plan_ok (fun pk s => refLib_toOutputScript_p2tr pk s .testnet)
    (fun x hx => ⟨⟨"text/plain", .text "hi", "prcpt"⟩, "w", by
      simp only [refSampleTool, List.mem_singleton] at hx
      rw [hx]; rfl⟩)
    (by simp) ⟨rfl, rfl, rfl, rfl⟩
    (rfl : buildEnhancedInscriptionChains refLib .testnet refDraws refSampleTool
      [⟨"aa", 0, 20000, "p5", "w"⟩] refSampleParams = _)⟩

end ChainInscription
