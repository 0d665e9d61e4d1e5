import ChainInscription.Run

/-!
# What the random draws change

Every Schnorr signature of a run draws fresh auxiliary randomness, so two runs of one request
return different signatures. This module shows that they return nothing else different, on a
library whose size reads only a transaction's shape: the same success, the same ids, amounts,
fees and records, the same error; only the hex of the signed transactions may differ.

A Schnorr signature has 64 bytes whatever its draw, and it goes into a witness, never into an
input script, so the draw changes only witness bytes: `Transaction.zeroWitness` forgets them,
keeping their lengths. The argument follows a run stage by stage, one congruence lemma each.
The dry-run signature of a commit changes only the witness of the clone the estimator sizes,
whose size reads its shape, so the plan is the same whatever the draws. Signing a transaction
of one input changes only that input's witness, and every transaction of a plan has one input,
so the signed chains agree once their witnesses are zeroed. The packager reads a transaction's
id, which commits to no witness, its outputs and its input's index, so the records agree once
their hex is erased.
-/

namespace ChainInscription

variable {η : Type}

/-! ## Forgetting witness bytes -/

/-- The transaction with every witness element replaced by zeros of the same length: what a
signature's draw cannot change. -/
def Transaction.zeroWitness (tx : Transaction η) : Transaction η :=
  { tx with ins := tx.ins.map fun x =>
      { x with witness := x.witness.map fun w => List.replicate w.length 0 } }

namespace Transaction

@[simp] theorem zeroWitness_outs (tx : Transaction η) : tx.zeroWitness.outs = tx.outs := rfl

@[simp] theorem stripWitness_zeroWitness (tx : Transaction η) :
    tx.zeroWitness.stripWitness = tx.stripWitness := by
  simp [zeroWitness, stripWitness, Function.comp_def]

@[simp] theorem shape_zeroWitness (tx : Transaction η) : tx.zeroWitness.shape = tx.shape := by
  simp [zeroWitness, shape, Function.comp_def]

theorem map_index_zeroWitness (tx : Transaction η) :
    tx.zeroWitness.ins.map (·.index) = tx.ins.map (·.index) := by
  simp [zeroWitness, Function.comp_def]

/-- Two witnesses whose elements have the same lengths leave the same transaction once zeroed. -/
theorem zeroWitness_setWitness_congr (tx : Transaction η) (i : ℕ) {w w' : List Bytes}
    (h : w.map List.length = w'.map List.length) :
    (tx.setWitness i w).zeroWitness = (tx.setWitness i w').zeroWitness := by
  have hw : w.map (fun b => List.replicate b.length (0 : UInt8)) =
      w'.map fun b => List.replicate b.length 0 := by
    simpa [Function.comp_def] using congrArg (List.map fun n => List.replicate n (0 : UInt8)) h
  simp only [zeroWitness, setWitness, Transaction.mk.injEq, true_and, and_true]
  exact map_modify_congr (fun a a' ha => by simp_all) i rfl

theorem getElem?_ins_zeroWitness (tx : Transaction η) (i : ℕ) :
    tx.zeroWitness.ins[i]? = tx.ins[i]?.map fun x =>
      { x with witness := x.witness.map fun w => List.replicate w.length 0 } := by
  simp [zeroWitness]

theorem shape_eq_of_zeroWitness {tx tx' : Transaction η} (h : tx.zeroWitness = tx'.zeroWitness) :
    tx.shape = tx'.shape := by
  rw [← shape_zeroWitness tx, h, shape_zeroWitness]

end Transaction

/-! ## Two computations alike up to an erasure -/

/-- Two computations alike through `f`, continued by a step that reads their value only through
`f`, give the same result. -/
theorem Except.bind_congr_of_map {ε α β γ : Type} {x y : Except ε α} (f : α → γ)
    (hxy : x.map f = y.map f) {g : α → Except ε β} (hg : ∀ a b, f a = f b → g a = g b) :
    x >>= g = y >>= g := by
  cases x with
  | error e => cases y <;> simp_all [Except.map]
  | ok a =>
    cases y with
    | error e => simp [Except.map] at hxy
    | ok b => exact hg a b (by simpa [Except.map] using hxy)

/-- Two computations alike through `f`, each continued by a step that reads its value only
through `f`, are alike through `F` after it. -/
theorem Except.map_bind_congr {ε α β γ δ : Type} {x y : Except ε α} (f : α → γ)
    (hxy : x.map f = y.map f) {g g' : α → Except ε β} (F : β → δ)
    (hg : ∀ a b, x = .ok a → y = .ok b → f a = f b → (g a).map F = (g' b).map F) :
    (x >>= g).map F = (y >>= g').map F := by
  cases x <;> cases y <;> simp_all [Except.map, bind, Except.bind]

/-- Two computations of one first step, each continued by a step that is alike through `F`
on every value the first step gives, are alike through `F`. -/
theorem Except.map_bind_congr_right {ε α β δ : Type} (x : Except ε α) {g g' : α → Except ε β}
    (F : β → δ) (hg : ∀ a, x = .ok a → (g a).map F = (g' a).map F) :
    (x >>= g).map F = (x >>= g').map F := by
  cases x with
  | error e => rfl
  | ok a => exact hg a rfl

theorem rethrowWith_map_congr {α β : Type} (pfx : String) {x y : Except String α} (f : α → β)
    (h : x.map f = y.map f) : (rethrowWith pfx x).map f = (rethrowWith pfx y).map f := by
  cases x <;> cases y <;> simp_all [rethrowWith, Except.mapError, Except.map]

variable {L : BitcoinLib η} {network : Network}

/-! ## Signing a funding input -/

/-- Signing a funding input with two draws gives the same error, or transactions alike once
their witnesses are zeroed: the draw goes only into a Taproot signature, 64 bytes whatever it
is, in the input's witness. -/
theorem signInput_draws (ps : List PrevOutput) (tx : Transaction η) (i : ℕ) (prev : PrevOutput)
    (aux aux' : Bytes) :
    (signInput L network ps tx i prev aux).map Transaction.zeroWitness =
      (signInput L network ps tx i prev aux').map Transaction.zeroWitness := by
  unfold signInput
  cases L.privateKeyFromWIF prev.privateKey network with
  | error e => rfl
  | ok k =>
    simp only [bind, Except.bind]
    cases L.getAddressType prev.address network
    case segwitTaproot =>
      cases ps.mapM fun o => L.toOutputScript o.address network with
      | error e => rfl
      | ok scripts =>
        simp only [Except.map, pure, Except.pure, Except.ok.injEq]
        exact Transaction.zeroWitness_setWitness_congr _ _ (by simp [SchnorrSig.length_eq])
    all_goals rfl

/-- `signTx` on a transaction of one input, with two draws, likewise. -/
theorem signTx_draws {tx : Transaction η} (h1 : tx.ins.length = 1) (ps : List PrevOutput)
    (aux aux' : ℕ → Bytes) :
    (signTx L network tx ps aux).map Transaction.zeroWitness =
      (signTx L network tx ps aux').map Transaction.zeroWitness := by
  simp only [signTx, h1, show List.range 1 = [0] from rfl, List.foldlM_cons, List.foldlM_nil,
    bind_pure]
  cases ps[0]? with
  | none => rfl
  | some prev => exact signInput_draws ps tx 0 prev (aux 0) (aux' 0)

/-! ## The estimator and the builder -/

variable (L network) in
/-- The library sizes a transaction by its shape alone: its output values and the bytes of its
witness elements, beyond their lengths, do not matter. -/
def ShapeSized : Prop :=
  ∀ (tx tx' : Transaction η) (addrs : List String), tx.shape = tx'.shape →
    L.countAdjustedVsize tx addrs network = L.countAdjustedVsize tx' addrs network

section Sizing
variable (hsize : ShapeSized L network)
include hsize

/-- One sizing pass prices a transaction of one input alike whatever the draws. -/
theorem sizedFee_draws (msgs : SizingMessages) {tx : Transaction η} (h1 : tx.ins.length = 1)
    (inputs : List PrevOutput) (r : FeeRate) (c : Bool) (x : Option InscriptionTxCtxData)
    (aux aux' : ℕ → Bytes) :
    sizedFee L network msgs tx inputs r c x aux = sizedFee L network msgs tx inputs r c x aux' := by
  unfold sizedFee
  refine Except.bind_congr_of_map Transaction.zeroWitness ?_ fun a b hab => ?_
  · cases c
    · rfl
    · exact rethrowWith_map_congr _ _ (signTx_draws h1 inputs aux aux')
  · rw [hsize a b _ (Transaction.shape_eq_of_zeroWitness hab)]

/-- The estimator prices a transaction of one input alike whatever the draws: only a commit's
pass draws, and a commit never takes the pass without change. -/
theorem estimateFeeAndOutput_draws {tx : Transaction η} (h1 : tx.ins.length = 1)
    (inputs : List PrevOutput) (r : FeeRate) (total fixed minChange : ℤ) (c : Bool)
    (x : Option InscriptionTxCtxData) (aux aux' : ℕ → Bytes) :
    estimateFeeAndOutput L network tx inputs r total fixed minChange c x aux =
      estimateFeeAndOutput L network tx inputs r total fixed minChange c x aux' := by
  cases c
  · rfl
  · simp only [estimateFeeAndOutput, if_true, ne_eq, not_true_eq_false, false_and, if_false,
      sizedFee_draws hsize withChangeMessages h1 inputs r true x aux aux']

/-- The assembler builds the same chain whatever the draws of its commit's dry run. -/
theorem buildSingleUtxoChain_draws (tool : ChainInscriptionTool η) (utxo : PrevOutput)
    (xs : List InscriptionTxCtxData) (p : ChainParams) (start c : ℕ) (aux aux' : ℕ → Bytes) :
    buildSingleUtxoChain L network tool utxo xs p start c aux =
      buildSingleUtxoChain L network tool utxo xs p start c aux' := by
  cases xs with
  | nil => rfl
  | cons x rest =>
    simp only [buildSingleUtxoChain, estimateFeeAndOutput_draws hsize
      (show (initialCommitTx L utxo x).ins.length = 1 from rfl) _ _ _ _ _ _ _ aux aux']

/-- The planner makes the same plan whatever the draws. -/
theorem planLoop_draws (rand rand' : RandomDraws) (utxos : List PrevOutput) (p : ChainParams)
    (fuel s u : ℕ) (tool : ChainInscriptionTool η) :
    planLoop L network rand utxos p fuel s u tool = planLoop L network rand' utxos p fuel s u tool := by
  have hbuild : ∀ (tool : ChainInscriptionTool η) utxo xs start c d,
      buildSingleUtxoChain L network tool utxo xs p start c (rand.sizing d) =
        buildSingleUtxoChain L network tool utxo xs p start c (rand'.sizing d) :=
    fun tool utxo xs start c d => buildSingleUtxoChain_draws hsize tool utxo xs p start c _ _
  induction fuel generalizing s u tool with
  | zero => rfl
  | succ fuel ih => simp only [planLoop, ih, hbuild]

theorem buildEnhancedInscriptionChains_draws (rand rand' : RandomDraws)
    (tool : ChainInscriptionTool η) (utxos : List PrevOutput) (p : ChainParams) :
    buildEnhancedInscriptionChains L network rand tool utxos p =
      buildEnhancedInscriptionChains L network rand' tool utxos p := by
  simp only [buildEnhancedInscriptionChains, planLoop_draws hsize rand rand']

end Sizing

/-! ## The signer -/

/-- The signer's reveal branch, with two draws, gives the same error, or transactions alike once
their witnesses are zeroed. -/
theorem signReveal_draws (tool : ChainInscriptionTool η) (c t : ℕ) (prev : List Output)
    (tx : Transaction η) (aux aux' : Bytes) :
    (signReveal L tool c t prev tx aux).map Transaction.zeroWitness =
      (signReveal L tool c t prev tx aux').map Transaction.zeroWitness := by
  simp only [signReveal]
  cases tx.ins[0]? with
  | none => rfl
  | some input =>
    simp only [pure_bind]
    split
    · rfl
    · split
      · rfl
      · split
        · rfl
        · split
          · rfl
          · simp only [Except.map, pure, Except.pure, Except.ok.injEq]
            exact Transaction.zeroWitness_setWitness_congr _ _ (by simp [SchnorrSig.length_eq])

/-- A chain of one-input transactions, signed with two draws, gives the same error or chains
alike once their witnesses are zeroed. -/
theorem signChain_draws (rand rand' : RandomDraws) (tool : ChainInscriptionTool η) (c : ℕ)
    (utxo : PrevOutput) (chain : List (Transaction η)) (h1 : ∀ tx ∈ chain, tx.ins.length = 1)
    (t : ℕ) (prev : List Output) :
    (signChain L network rand tool c utxo chain t prev).map (List.map Transaction.zeroWitness) =
      (signChain L network rand' tool c utxo chain t prev).map
        (List.map Transaction.zeroWitness) := by
  induction chain generalizing t prev with
  | nil => rfl
  | cons tx rest ih =>
    simp only [signChain]
    refine Except.map_bind_congr Transaction.zeroWitness ?_ _ fun a b _ _ hab => ?_
    · refine rethrowWith_map_congr _ _ ?_
      split
      · exact signTx_draws (h1 tx (List.mem_cons_self _ _)) _ _ _
      · exact signReveal_draws _ _ _ _ _ _ _
    · have houts : a.outs = b.outs := by
        rw [← Transaction.zeroWitness_outs a, hab, Transaction.zeroWitness_outs]
      rw [houts]
      refine Except.map_bind_congr (List.map Transaction.zeroWitness)
        (ih (fun tx h => h1 tx (List.mem_cons_of_mem _ h)) _ _) _ fun as bs _ _ hs => ?_
      simp only [pure, Except.pure, Except.map, List.map_cons, hab, hs]

/-- The signer's loop over chains, with two draws, likewise. -/
theorem signChains_draws (rand rand' : RandomDraws) (tool : ChainInscriptionTool η)
    (utxos : List PrevOutput) (chains : List (List (Transaction η)))
    (h1 : ∀ chain ∈ chains, ∀ tx ∈ chain, tx.ins.length = 1) (c : ℕ) :
    (signChains L network rand tool utxos chains c).map (List.map (List.map Transaction.zeroWitness)) =
      (signChains L network rand' tool utxos chains c).map
        (List.map (List.map Transaction.zeroWitness)) := by
  induction chains generalizing c with
  | nil => rfl
  | cons chain rest ih =>
    have hrest : ∀ a b : List (Transaction η),
        a.map Transaction.zeroWitness = b.map Transaction.zeroWitness →
        (signChains L network rand tool utxos rest (c + 1) >>= fun r => pure (a :: r)).map
            (List.map (List.map Transaction.zeroWitness)) =
          (signChains L network rand' tool utxos rest (c + 1) >>= fun r => pure (b :: r)).map
            (List.map (List.map Transaction.zeroWitness)) := fun a b hab =>
      Except.map_bind_congr _ (ih (fun ch h => h1 ch (List.mem_cons_of_mem _ h)) _) _
        fun as bs _ _ hs => by simp only [pure, Except.pure, Except.map, List.map_cons, hab, hs]
    simp only [signChains]
    split
    · exact hrest chain chain rfl
    · split
      · exact hrest chain chain rfl
      · exact Except.map_bind_congr _ (signChain_draws _ _ _ _ _ _ (h1 chain (List.mem_cons_self _ _))
          _ _) _ fun a b _ _ hab => hrest a b hab

/-- The tool with every witness of its chains zeroed. -/
def ChainInscriptionTool.zeroWitness (tool : ChainInscriptionTool η) : ChainInscriptionTool η :=
  { tool with txChains := tool.txChains.map (List.map Transaction.zeroWitness) }

/-- Signing a plan of one-input transactions with two draws gives the same error, or tools
alike once their witnesses are zeroed. -/
theorem signAllTransactions_draws (rand rand' : RandomDraws) (tool : ChainInscriptionTool η)
    (utxos : List PrevOutput) (h1 : ∀ chain ∈ tool.txChains, ∀ tx ∈ chain, tx.ins.length = 1) :
    (signAllTransactions L network rand tool utxos).map ChainInscriptionTool.zeroWitness =
      (signAllTransactions L network rand' tool utxos).map ChainInscriptionTool.zeroWitness := by
  unfold signAllTransactions
  split
  · rfl
  · refine Except.map_bind_congr (List.map (List.map Transaction.zeroWitness))
      (signChains_draws _ _ _ _ _ h1 _) _ fun as bs _ _ hs => ?_
    simp only [pure, Except.pure, Except.map, ChainInscriptionTool.zeroWitness, hs]

/-! ## Every transaction of a plan has one input -/

theorem RevealsBuilt.ins_length {utxo : PrevOutput} {first : InscriptionTxCtxData}
    {p : ChainParams} {prev : Transaction η} {v : ℤ} {k : ℕ} {xs : List InscriptionTxCtxData}
    {txs : List (Transaction η)} {fees : List ℤ}
    (h : RevealsBuilt L network utxo first p prev v k xs txs fees) :
    ∀ tx ∈ txs, tx.ins.length = 1 := by
  induction h with
  | nil => simp
  | keep _ _ _ _ ih => exact List.forall_mem_cons.2 ⟨rfl, ih⟩
  | drop => exact List.forall_mem_singleton.2 rfl

theorem ChainBuilt.ins_length {utxo : PrevOutput} {p : ChainParams} {aux : ℕ → Bytes}
    {xs : List InscriptionTxCtxData} {chain : List (Transaction η)} {fees : List ℤ}
    (h : ChainBuilt L network utxo p aux xs chain fees) : ∀ tx ∈ chain, tx.ins.length = 1 := by
  cases h with
  | mk _ _ reveals => exact List.forall_mem_cons.2 ⟨rfl, reveals.ins_length⟩

theorem PlanBuilt.ins_length {utxos : List PrevOutput} {xs : List InscriptionTxCtxData}
    {p : ChainParams} {rand : RandomDraws} {k : ℕ} {chains : List (List (Transaction η))}
    {feess : List (List ℤ)} (h : PlanBuilt L network utxos xs p rand k chains feess) :
    ∀ chain ∈ chains, ∀ tx ∈ chain, tx.ins.length = 1 := by
  induction h with
  | done => simp
  | chain _ _ hc _ ih => exact List.forall_mem_cons.2 ⟨hc.ins_length, ih⟩

/-- The planner leaves a fresh tool with chains of one-input transactions. -/
theorem buildEnhancedInscriptionChains_ins_length {rand : RandomDraws}
    {tool tool' : ChainInscriptionTool η} {utxos : List PrevOutput} {p : ChainParams}
    (hk : tool.txChains = []) (hu : utxos ≠ [])
    (h : buildEnhancedInscriptionChains L network rand tool utxos p = .ok tool') :
    ∀ chain ∈ tool'.txChains, ∀ tx ∈ chain, tx.ins.length = 1 := by
  obtain ⟨chains, feess, hpb, rfl⟩ := buildEnhancedInscriptionChains_eq_ok hk hu h
  simpa [planned, hk] using hpb.ins_length

/-- The tool makes the same plan whatever the draws and signs it alike: the same error, or
tools alike once their witnesses are zeroed. -/
theorem newChainInscriptionTool_draws (hsize : ShapeSized L network) (rand rand' : RandomDraws)
    (request : InscriptionRequest) :
    (newChainInscriptionTool L network rand request).map ChainInscriptionTool.zeroWitness =
      (newChainInscriptionTool L network rand' request).map ChainInscriptionTool.zeroWitness := by
  unfold newChainInscriptionTool
  split
  · rfl
  next primary rest hreq =>
    split
    · rfl
    · refine Except.map_bind_congr_right _ _ fun _ _ => ?_
      refine Except.map_bind_congr_right _ _ fun contexts _ => ?_
      simp only [buildEnhancedInscriptionChains_draws hsize rand rand']
      exact Except.map_bind_congr_right _ _ fun tool htool => signAllTransactions_draws _ _ _ _
        (buildEnhancedInscriptionChains_ins_length rfl (by simp [hreq]) htool)

/-! ## The packager -/

/-- A `LastTxInfo` with its hex forgotten. -/
def LastTxInfo.eraseHex (info : LastTxInfo) : LastTxInfo := { info with hex := "" }

/-- A chain as the packager returns it, with its hex forgotten. -/
def erasePackedHex (packed : List String × List String × Option LastTxInfo) :
    List String × List String × Option LastTxInfo :=
  (packed.1.map fun _ => "", packed.2.1, packed.2.2.map LastTxInfo.eraseHex)

/-- A result with the hex of its transactions forgotten, in its chains and in its records. -/
def ChainInscribeResult.eraseHex (result : ChainInscribeResult) : ChainInscribeResult :=
  { result with
    txChains := result.txChains.map (List.map fun _ => "")
    lastTxDetails := result.lastTxDetails.map LastTxInfo.eraseHex }

namespace ChainInscribeResult

@[simp] theorem eraseHex_success (result : ChainInscribeResult) :
    result.eraseHex.success = result.success := rfl
@[simp] theorem eraseHex_txChainTxIds (result : ChainInscribeResult) :
    result.eraseHex.txChainTxIds = result.txChainTxIds := rfl
@[simp] theorem eraseHex_totalEstimatedFee (result : ChainInscribeResult) :
    result.eraseHex.totalEstimatedFee = result.totalEstimatedFee := rfl

end ChainInscribeResult

@[simp] theorem getId_zeroWitness (tx : Transaction η) : L.getId tx.zeroWitness = L.getId tx := by
  simp [BitcoinLib.getId, BitcoinLib.getHash]

theorem lastTxInfo_zeroWitness (tool : ChainInscriptionTool η) (request : InscriptionRequest)
    (c n : ℕ) (lastTx prevTx : Transaction η) (vout : ℕ) (value : ℤ) :
    (lastTxInfo L tool request c n lastTx.zeroWitness prevTx.zeroWitness vout value).eraseHex =
      (lastTxInfo L tool request c n lastTx prevTx vout value).eraseHex := by
  simp [lastTxInfo, LastTxInfo.eraseHex]

/-- The packager reads a chain, once its hex is erased, only through its zeroed witnesses. -/
theorem packChain_zeroWitness (tool : ChainInscriptionTool η) (request : InscriptionRequest)
    (c : ℕ) (chain : List (Transaction η)) :
    (packChain L tool request c (chain.map Transaction.zeroWitness)).map erasePackedHex =
      (packChain L tool request c chain).map erasePackedHex := by
  unfold packChain
  by_cases h : chain.length < 2
  · simp [h]
  · rw [dif_neg (by simpa using h), dif_neg h]
    simp only [List.get_eq_getElem, List.getElem_map, List.length_map]
    generalize chain[chain.length - 1] = lastTx
    cases hin : lastTx.ins[0]? with
    | none => simp [Transaction.getElem?_ins_zeroWitness, hin]
    | some input =>
      simp only [Transaction.getElem?_ins_zeroWitness, hin, Option.map_some',
        Transaction.zeroWitness_outs]
      split <;> simp [erasePackedHex, Except.map, pure, Except.pure, lastTxInfo_zeroWitness,
        Function.comp_def]

/-- The packager's loop, likewise; it reads the tool only outside its chains. -/
theorem packChains_zeroWitness (tool : ChainInscriptionTool η) (request : InscriptionRequest)
    (chains : List (List (Transaction η))) (c : ℕ) :
    (packChains L tool.zeroWitness request (chains.map (List.map Transaction.zeroWitness)) c).map
        (List.map erasePackedHex) =
      (packChains L tool request chains c).map (List.map erasePackedHex) := by
  induction chains generalizing c with
  | nil => rfl
  | cons chain rest ih =>
    simp only [packChains, List.map_cons]
    refine Except.map_bind_congr erasePackedHex (packChain_zeroWitness tool request c chain) _
      fun a b _ _ hab => Except.map_bind_congr _ (ih _) _ fun as bs _ _ hs => ?_
    simp only [pure, Except.pure, Except.map, List.map_cons, hab, hs]

/-- The tool and the packager, run with two draws, give the same error, or the same fee total
and the same packed chains once their hex is erased. -/
theorem packedRun_draws (hsize : ShapeSized L network) (rand rand' : RandomDraws)
    (request : InscriptionRequest) :
    (newChainInscriptionTool L network rand request >>= fun tool =>
        packChains L tool request tool.txChains 0 >>= fun packed => pure (tool, packed)).map
          (fun r => (r.1.totalEstimatedFee, r.2.map erasePackedHex)) =
      (newChainInscriptionTool L network rand' request >>= fun tool =>
        packChains L tool request tool.txChains 0 >>= fun packed => pure (tool, packed)).map
          (fun r => (r.1.totalEstimatedFee, r.2.map erasePackedHex)) := by
  have hpack : ∀ tool : ChainInscriptionTool η,
      (packChains L tool request tool.txChains 0).map (List.map erasePackedHex) =
        (packChains L tool.zeroWitness request tool.zeroWitness.txChains 0).map
          (List.map erasePackedHex) := fun tool =>
    (packChains_zeroWitness tool request tool.txChains 0).symm
  refine Except.map_bind_congr _ (newChainInscriptionTool_draws hsize rand rand' request) _
    fun a b _ _ hab => Except.map_bind_congr _ (by rw [hpack a, hpack b, hab]) _
      fun as bs _ _ hs => ?_
  simp only [pure, Except.pure, Except.map, hs, Except.ok.injEq, Prod.mk.injEq, and_true]
  exact (congrArg ChainInscriptionTool.totalEstimatedFee hab :)

/-- **The draws change only the hex.** On a library whose size reads only a transaction's
shape, two runs of one request with any two draws return the same result once the hex of their
transactions is erased: the same success or error, the same ids, fee total and records. -/
theorem inscribeChain_draws (hsize : ShapeSized L network) (rand rand' : RandomDraws)
    (request : InscriptionRequest) :
    (inscribeChain L network rand request).eraseHex =
      (inscribeChain L network rand' request).eraseHex := by
  have hrun := packedRun_draws hsize rand rand' request
  simp only [inscribeChain]
  revert hrun
  generalize (newChainInscriptionTool L network rand request >>= fun tool =>
    packChains L tool request tool.txChains 0 >>= fun packed => pure (tool, packed)) = x
  generalize (newChainInscriptionTool L network rand' request >>= fun tool =>
    packChains L tool request tool.txChains 0 >>= fun packed => pure (tool, packed)) = y
  intro hrun
  cases x <;> cases y <;>
    simp only [Except.map, Except.ok.injEq, Except.error.injEq, Prod.mk.injEq] at hrun
  · rw [hrun]
  · cases hrun
  · cases hrun
  · obtain ⟨hfee, hp⟩ := hrun
    have h1 := congrArg (List.map (·.1)) hp
    have h2 := congrArg (List.map (·.2.1)) hp
    have h3 := congrArg (List.filterMap (·.2.2)) hp
    simp only [erasePackedHex, List.map_map, List.filterMap_map, Function.comp_def] at h1 h2 h3
    simp only [ChainInscribeResult.eraseHex, List.map_map, List.map_filterMap, Function.comp_def,
      h1, h2, h3, hfee]

/-- The reference library sizes a transaction by its shape. -/
theorem refLib_shapeSized (n : Network) : ShapeSized refLib n :=
  fun tx tx' addrs h => refLib_countAdjustedVsize_shape tx tx' addrs n h

/-- Draws for a second run on the reference library: every call returns 32 bytes of ones. -/
def refOnesDraws : RandomDraws :=
  ⟨fun _ _ => List.replicate 32 1, fun _ _ _ => List.replicate 32 1⟩

/-- Two runs of a two-inscription request on the reference library, one drawing zeros and one
ones, agree once their hex is erased. -/
theorem inscribeChain_draws_at_ones :
    ShapeSized refLib .testnet ∧
      (inscribeChain refLib .testnet refDraws (refRequest [refFunding 20000] 2)).eraseHex =
        (inscribeChain refLib .testnet refOnesDraws (refRequest [refFunding 20000] 2)).eraseHex :=
  ⟨refLib_shapeSized .testnet, inscribeChain_draws (refLib_shapeSized .testnet) _ _ _⟩

end ChainInscription
