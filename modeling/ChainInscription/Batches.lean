import ChainInscription.Draws

/-!
# Requests in batches of chains

The planner cuts the inscriptions into segments of 24 and gives segment `k` to funding output
`k`, and nothing a chain is built, signed or described from reads another chain's funding output
or inscriptions. So a request can be sent in batches of whole chains: the request for the first
`m` funding outputs and the first `24 m` inscriptions, `InscriptionRequest.batch`, returns
exactly the first `m` chains of the whole request, with the same transactions, ids and records.

The comparison follows the two runs stage by stage. The builder never reads the tool it records
into, nor the start and chain indices it records under (`buildSingleUtxoChain_reindex`), so
while the whole run builds chains `0` to `m - 1` the batch run takes the same passes on its
shorter contexts list, and it stops where the whole run goes on with chain `m`, whose ledger and
mapping entries all come after. `IsBatch`
names what the batch's tool keeps of the whole run's: the first `24 m` contexts, the first `m`
chains, and the ledger and mapping entries that come before every entry of a later chain. From
it the signer and the packager look up the same contexts, fees and records for the first `m`
chains in both runs.
-/

namespace ChainInscription

variable {η : Type} {L : BitcoinLib η} {network : Network} {rand : RandomDraws}

/-- The request for the first `m` chains of `request`: its first `m` funding outputs and its
first `24 m` inscriptions, with the same settings. -/
def InscriptionRequest.batch (request : InscriptionRequest) (m : ℕ) : InscriptionRequest :=
  { request with
    commitTxPrevOutputList := request.commitTxPrevOutputList.take m
    inscriptionDataList := request.inscriptionDataList.take (24 * m) }

section BatchFields
variable (request : InscriptionRequest) (m : ℕ)

@[simp] theorem InscriptionRequest.batch_commitTxPrevOutputList :
    (request.batch m).commitTxPrevOutputList = request.commitTxPrevOutputList.take m := rfl
@[simp] theorem InscriptionRequest.batch_inscriptionDataList :
    (request.batch m).inscriptionDataList = request.inscriptionDataList.take (24 * m) := rfl
@[simp] theorem InscriptionRequest.batch_chainParams :
    (request.batch m).chainParams = request.chainParams := rfl

end BatchFields

/-! ## The builder records into the tool, never reads its contexts -/

section Builder
variable {utxo : PrevOutput} {first : InscriptionTxCtxData} {p : ChainParams} {start c : ℕ}

/-- The reveal loop takes the same steps whatever the start index, the chain index and the tool
it records into: it builds the same reveals and records their fees and context indices under
the keys it is given. -/
theorem revealLoop_reindex (start' c' : ℕ) (tool' : ChainInscriptionTool η)
    {xs : List InscriptionTxCtxData} {i : ℕ} {prev : Transaction η} {v : ℤ} {k : ℕ}
    {txChain : List (Transaction η)} {tool : ChainInscriptionTool η}
    {res : List (Transaction η) × ChainInscriptionTool η}
    (h : revealLoop L network utxo first p start c xs i prev v k txChain tool = .ok res) :
    ∃ txs fees, res = (txChain ++ txs, tool.recordAll (feeEntries c txChain.length fees)
        (revealMappings c txChain.length (start + i) xs.length)) ∧
      revealLoop L network utxo first p start' c' xs i prev v k txChain tool' =
        .ok (txChain ++ txs, tool'.recordAll (feeEntries c' txChain.length fees)
          (revealMappings c' txChain.length (start' + i) xs.length)) := by
  induction xs generalizing i prev v k txChain tool tool' with
  | nil =>
    simp only [revealLoop, Except.pure_eq_ok] at h ⊢
    exact ⟨[], [], by simp [← h, feeEntries, revealMappings],
      by simp [feeEntries, revealMappings]⟩
  | cons x rest ih =>
    simp only [revealLoop] at h ⊢
    by_cases hca : changeAddressFor p.finalChangeAddress rest = ""
    · simp [hca] at h
    rw [if_neg hca] at h ⊢
    obtain ⟨cs, hcs, h⟩ := Except.bind_eq_ok.1 h
    obtain ⟨⟨fee, change⟩, hest, h⟩ := Except.bind_eq_ok.1 h
    rw [hcs, Except.ok_bind, hest, Except.ok_bind]
    cases change with
    | bot => cases h
    | coe change =>
      dsimp only at h ⊢
      by_cases hm1 : change = -1
      · rw [if_pos hm1] at h ⊢
        cases rest with
        | cons y rest' => simp at h
        | nil =>
          rw [if_neg (by simp)] at h ⊢
          obtain ⟨⟨fee₂, change₂⟩, hest₂, h⟩ := Except.bind_eq_ok.1 h
          rw [hest₂, Except.ok_bind]
          refine ⟨[(newRevealTx L prev k x p.revealOutValue cs).popOutput], [fee₂], ?_, ?_⟩
          · simp [← Except.pure_eq_ok.1 h, feeEntries, revealMappings,
              ChainInscriptionTool.recordTx_eq_recordAll]
          · simp [feeEntries, revealMappings, ChainInscriptionTool.recordTx_eq_recordAll]
      rw [if_neg hm1] at h ⊢
      by_cases hmin : change ≥ p.minChangeValue
      · rw [if_pos hmin] at h ⊢
        obtain ⟨txs, fees, rfl, h₂⟩ := ih _ h
        refine ⟨(newRevealTx L prev k x p.revealOutValue cs).setOutputValue 1 change :: txs,
          fee :: fees, ?_, ?_⟩
        · simp [feeEntries, revealMappings, ChainInscriptionTool.recordTx_eq_recordAll,
            Nat.add_assoc, Nat.add_comm 1]
        · rw [h₂]
          simp [feeEntries, revealMappings, ChainInscriptionTool.recordTx_eq_recordAll,
            Nat.add_assoc, Nat.add_comm 1]
      · rw [if_neg hmin] at h
        cases h

/-- The builder takes the same steps whatever the start index, the chain index and the tool it
records into: it builds the same chain, and records its commit and its reveals under the keys it
is given. -/
theorem buildSingleUtxoChain_reindex (start' c' : ℕ) (tool' : ChainInscriptionTool η)
    {tool : ChainInscriptionTool η} {xs : List InscriptionTxCtxData}
    {aux : ℕ → Bytes} {res : List (Transaction η) × ChainInscriptionTool η} (hxs : xs ≠ [])
    (h : buildSingleUtxoChain L network tool utxo xs p start c aux = .ok res) :
    ∃ chain fees, chain ≠ [] ∧
      res = (chain, tool.recordAll (feeEntries c 0 fees)
        (⟨c, 0, none⟩ :: revealMappings c 1 start xs.length)) ∧
      buildSingleUtxoChain L network tool' utxo xs p start' c' aux =
        .ok (chain, tool'.recordAll (feeEntries c' 0 fees)
          (⟨c', 0, none⟩ :: revealMappings c' 1 start' xs.length)) := by
  obtain _ | ⟨x, rest⟩ := xs
  · exact absurd rfl hxs
  simp only [buildSingleUtxoChain] at h ⊢
  obtain ⟨⟨fee, value⟩, hest, h⟩ := Except.bind_eq_ok.1 h
  rw [hest, Except.ok_bind]
  cases value with
  | bot => cases h
  | coe value =>
    dsimp only at h ⊢
    by_cases hneg : value < 0
    · rw [if_pos hneg] at h
      cases h
    rw [if_neg hneg] at h ⊢
    obtain ⟨txs, fees, rfl, h₂⟩ :=
      revealLoop_reindex start' c' (tool'.recordTx c' 0 fee none) h
    refine ⟨(initialCommitTx L utxo x).setOutputValue 0 value :: txs, fee :: fees,
      List.cons_ne_nil _ _, ?_, ?_⟩
    · simp [feeEntries, ChainInscriptionTool.recordTx_eq_recordAll]
    · rw [h₂]
      simp [feeEntries, ChainInscriptionTool.recordTx_eq_recordAll]

end Builder

/-! ## One pass of the planner -/

section Planner
variable {p : ChainParams} {utxos : List PrevOutput} {fuel s u : ℕ}
  {tool : ChainInscriptionTool η}

/-- The same pass, with the funding output, the segment, its length and the chain index it uses
given by name, so that two runs can be stepped to the same shape without rewriting. -/
theorem planLoop_succ_eq (hs : s < tool.inscriptionTxCtxDataList.length) {utxo : PrevOutput}
    (hu : utxos[u]? = some utxo) {cnt : ℕ}
    (hcnt : min (tool.inscriptionTxCtxDataList.length - s) 24 = cnt)
    {xs : List InscriptionTxCtxData}
    (hxs : slice tool.inscriptionTxCtxDataList s (s + cnt) = xs) {c : ℕ}
    (hc : tool.txChains.length = c) :
    planLoop L network rand utxos p (fuel + 1) s u tool = (do
      let (txChain, tool₁) ← buildSingleUtxoChain L network tool utxo xs p s c (rand.sizing c)
      planLoop L network rand utxos p fuel (s + cnt) (u + 1)
        (if txChain.length > 0 then { tool₁ with txChains := tool₁.txChains ++ [txChain] }
          else tool₁)) := by
  obtain ⟨hlt, rfl⟩ := List.getElem?_eq_some_iff.1 hu
  subst hcnt hxs hc
  exact planLoop_succ_of_lt hs hlt

end Planner

/-! ## What a batch run keeps of the whole run -/

theorem chainIndex_of_mem_feeEntries {c t : ℕ} {fs : List ℤ} {e : TxFee}
    (h : e ∈ feeEntries c t fs) : e.chainIndex = c := by
  induction fs generalizing t with
  | nil => cases h
  | cons f fs ih =>
    rcases List.mem_cons.1 h with rfl | h
    · rfl
    · exact ih h

theorem of_mem_revealMappings {c t i n : ℕ} {e : ContextMapping}
    (h : e ∈ revealMappings c t i n) :
    e.chainIndex = c ∧ ∀ j, e.contextIndex = some j → j < i + n := by
  rw [revealMappings_eq] at h
  obtain ⟨a, ha, rfl⟩ := List.mem_map.1 h
  exact ⟨rfl, fun j hj => by cases hj; simp at ha; omega⟩

theorem find?_append_of_forall {α : Type} {l rest : List α} {q : α → Bool}
    (h : ∀ e ∈ rest, q e = false) : (l ++ rest).find? q = l.find? q := by
  have hnone : rest.find? q = none := List.find?_eq_none.2 fun e he => by simp [h e he]
  rw [List.find?_append, hnone, Option.or_none]

/-- `tool₂` is what a run on the first `m` chains' data keeps of the whole run's `tool`: the
same network, the first `24 m` contexts and the first `m` chains; the ledger and the mapping
of `tool` are those of `tool₂` followed by entries of later chains only; and every context
index `tool₂` maps names one of its own contexts. -/
structure IsBatch (m : ℕ) (tool tool₂ : ChainInscriptionTool η) : Prop where
  network_eq : tool₂.network = tool.network
  ctxs_eq : tool₂.inscriptionTxCtxDataList = tool.inscriptionTxCtxDataList.take (24 * m)
  chains_eq : tool₂.txChains = tool.txChains.take m
  fees_eq : ∃ rest, tool.txFees = tool₂.txFees ++ rest ∧ ∀ e ∈ rest, m ≤ e.chainIndex
  mapping_eq : ∃ rest, tool.chainContextMapping = tool₂.chainContextMapping ++ rest ∧
    ∀ e ∈ rest, m ≤ e.chainIndex
  index_lt : ∀ e ∈ tool₂.chainContextMapping, ∀ i, e.contextIndex = some i →
    i < tool₂.inscriptionTxCtxDataList.length

namespace IsBatch
variable {m : ℕ} {tool tool₂ : ChainInscriptionTool η}

/-- Before chain `m` is built, the batch run's tool is the whole run's with fewer contexts. -/
theorem withCtxs (hk : tool.txChains.length ≤ m)
    (hidx : ∀ e ∈ tool.chainContextMapping, ∀ i, e.contextIndex = some i →
      i < min (24 * m) tool.inscriptionTxCtxDataList.length) :
    IsBatch m tool
      { tool with inscriptionTxCtxDataList := tool.inscriptionTxCtxDataList.take (24 * m) } :=
  ⟨rfl, rfl, (List.take_of_length_le hk).symm, ⟨[], by simp, by simp⟩, ⟨[], by simp, by simp⟩,
    fun e he i hi => by simpa using hidx e he i hi⟩

/-- The whole run's passes from chain `k ≥ m` on keep the batch's tool a batch of it. -/
theorem planned (hb : IsBatch m tool tool₂) {utxos : List PrevOutput} {p : ChainParams} {k : ℕ}
    {chains : List (List (Transaction η))} {feess : List (List ℤ)} (hmk : m ≤ k)
    (hlen : m ≤ tool.txChains.length)
    (hpb : PlanBuilt L network utxos tool.inscriptionTxCtxDataList p rand k chains feess) :
    IsBatch m (ChainInscription.planned tool k chains feess) tool₂ := by
  obtain ⟨hn, hx, hc, ⟨fs, hfs, hfs'⟩, ⟨ms, hms, hms'⟩, hi⟩ := hb
  have hkey : ∀ c t, (c, t) ∈ txKeys k (feess.map List.length) → m ≤ c :=
    fun c t h => hmk.trans (mem_txKeys.1 h).1
  refine ⟨hn, hx, by simp [ChainInscription.planned, hc, List.take_append_of_le_length hlen],
    ⟨fs ++ planFees k feess, by simp [ChainInscription.planned, hfs], ?_⟩,
    ⟨ms ++ planMappings tool.inscriptionTxCtxDataList k feess,
      by simp [ChainInscription.planned, hms], ?_⟩, hi⟩
  · intro e he
    rcases List.mem_append.1 he with he | he
    · exact hfs' e he
    · exact hkey _ e.txIndex (map_key_planFees k feess ▸ List.mem_map_of_mem _ he)
  · intro e he
    rcases List.mem_append.1 he with he | he
    · exact hms' e he
    · rw [hpb.planMappings_eq] at he
      obtain ⟨⟨c, t⟩, hct, rfl⟩ := List.mem_map.1 he
      exact hkey c t hct

end IsBatch

/-! ## The planner on a batch -/

theorem slice_take_of_le {α : Type} (xs : List α) {k start stop : ℕ} (h : stop ≤ k) :
    slice (xs.take k) start stop = slice xs start stop := by
  simp only [slice, List.drop_take, List.take_take]
  congr 1
  omega

section Simulation
variable {p : ChainParams} {utxos : List PrevOutput} {m : ℕ} {fuel fuel₂ u s : ℕ}
  {tool : ChainInscriptionTool η} {r : ℕ × ChainInscriptionTool η}

/-- Where the batch has no inscription left, the batch run stops: either the whole run stops too,
or it is at chain `m` and its later passes only append. -/
theorem planLoop_batch_of_le (hu : u ≤ m) (hk : tool.txChains.length = u)
    (hs : s = min (24 * u) tool.inscriptionTxCtxDataList.length)
    (hfuel : tool.inscriptionTxCtxDataList.length ≤ 24 * (u + fuel))
    (hidx : ∀ e ∈ tool.chainContextMapping, ∀ i, e.contextIndex = some i → i < s)
    (hstop : min (24 * m) tool.inscriptionTxCtxDataList.length ≤ s)
    (h : planLoop L network rand utxos p fuel s u tool = .ok r) :
    ∃ r₂, planLoop L network rand (utxos.take m) p fuel₂ s u
        { tool with inscriptionTxCtxDataList := tool.inscriptionTxCtxDataList.take (24 * m) } =
        .ok r₂ ∧ IsBatch m r.2 r₂.2 := by
  have hb := IsBatch.withCtxs (hk ▸ hu) fun e he i hi => by have := hidx e he i hi; omega
  refine ⟨(s, _), planLoop_of_le (by simpa using hstop), ?_⟩
  by_cases hum : u = m
  · subst hum hs
    obtain ⟨-, chains, feess, hpb, hr⟩ := planLoop_eq_ok rfl hk hfuel h
    exact hr ▸ hb.planned le_rfl hk.ge hpb
  · rw [planLoop_of_le (by omega), Except.ok.injEq] at h
    exact h ▸ hb

/-- **The planner on a batch.** Until the whole run reaches chain `m`, the batch run, on the
first `m` funding outputs and the first `24 m` contexts, takes the same passes and records the
same entries; then it stops, and the whole run's later passes only append. -/
theorem planLoop_batch {tool₂ : ChainInscriptionTool η} (hu : u ≤ m)
    (hk : tool.txChains.length = u) (hs : s = min (24 * u) tool.inscriptionTxCtxDataList.length)
    (hfuel : tool.inscriptionTxCtxDataList.length ≤ 24 * (u + fuel))
    (hfuel₂ : min (24 * m) tool.inscriptionTxCtxDataList.length ≤ 24 * (u + fuel₂))
    (hidx : ∀ e ∈ tool.chainContextMapping, ∀ i, e.contextIndex = some i → i < s)
    (htool₂ : tool₂ =
      { tool with inscriptionTxCtxDataList := tool.inscriptionTxCtxDataList.take (24 * m) })
    (h : planLoop L network rand utxos p fuel s u tool = .ok r) :
    ∃ r₂, planLoop L network rand (utxos.take m) p fuel₂ s u tool₂ = .ok r₂ ∧ IsBatch m r.2 r₂.2 := by
  induction fuel generalizing fuel₂ u s tool tool₂ with
  | zero => exact htool₂ ▸ planLoop_batch_of_le hu hk hs hfuel hidx (by omega) h
  | succ fuel ih =>
    by_cases hstop : min (24 * m) tool.inscriptionTxCtxDataList.length ≤ s
    · exact htool₂ ▸ planLoop_batch_of_le hu hk hs hfuel hidx hstop h
    have hsn : s < tool.inscriptionTxCtxDataList.length := by omega
    have hcount : u < utxos.length := by
      by_contra hc
      simp [planLoop, hsn, not_lt.1 hc] at h
    obtain ⟨fuel₂, rfl⟩ : ∃ f, fuel₂ = f + 1 := ⟨fuel₂ - 1, by omega⟩
    obtain ⟨hsl, hpos⟩ := slice_length_of_lt _ hsn
    simp only [maxInscriptionsPerChain_eq] at hsl hpos
    obtain ⟨cnt, hcnt⟩ : ∃ cnt, min (tool.inscriptionTxCtxDataList.length - s) 24 = cnt :=
      ⟨_, rfl⟩
    obtain ⟨xs, hxs⟩ : ∃ xs, slice tool.inscriptionTxCtxDataList s (s + cnt) = xs := ⟨_, rfl⟩
    rw [hcnt, hxs] at hsl
    rw [hcnt] at hpos
    obtain ⟨utxo, hutxo⟩ : ∃ utxo, utxos[u]? = some utxo := ⟨_, List.getElem?_eq_getElem hcount⟩
    rw [planLoop_succ_eq hsn hutxo hcnt hxs rfl] at h
    have hctx₂ : tool₂.inscriptionTxCtxDataList = tool.inscriptionTxCtxDataList.take (24 * m) := by
      rw [htool₂]
    rw [planLoop_succ_eq (show s < tool₂.inscriptionTxCtxDataList.length by simpa [hctx₂] using hstop)
      (by rw [List.getElem?_take_of_lt (by omega), hutxo])
      (show min (tool₂.inscriptionTxCtxDataList.length - s) 24 = cnt by
        rw [hctx₂, List.length_take, ← hcnt]; omega)
      (show slice tool₂.inscriptionTxCtxDataList s (s + cnt) = xs by
        rw [hctx₂, slice_take_of_le _ (by omega), hxs])
      (show tool₂.txChains.length = tool.txChains.length by rw [htool₂])]
    obtain ⟨⟨chain, tool₁⟩, hbuild, h⟩ := Except.bind_eq_ok.1 h
    obtain ⟨chain', fees, hne, hres, h₂⟩ := buildSingleUtxoChain_reindex s tool.txChains.length
      tool₂ (List.ne_nil_of_length_pos (by omega)) hbuild
    rw [h₂, Except.ok_bind]
    simp only [Prod.mk.injEq] at hres
    obtain ⟨rfl, rfl⟩ := hres
    simp only [List.length_pos.2 hne, if_true] at h ⊢
    refine ih (by omega) (by simp [hk]) (by simp; omega) (by simp; omega) (by simp; omega)
      (fun e he i hi => ?_) (by subst htool₂; rfl) h
    simp only [ChainInscriptionTool.recordAll_chainContextMapping, List.mem_append,
      List.mem_cons] at he
    rcases he with he | rfl | he
    · have := hidx e he i hi; omega
    · cases hi
    · have := (of_mem_revealMappings he).2 i hi; omega

/-- The planner's entry on a batch: on a fresh tool, the batch's first `24 m` contexts and first
`m` funding outputs give a batch of the whole plan. -/
theorem buildEnhancedInscriptionChains_batch {tool tool' : ChainInscriptionTool η} (hm : 0 < m)
    (hf : tool.Fresh) (h : buildEnhancedInscriptionChains L network rand tool utxos p = .ok tool') :
    ∃ tool₂, buildEnhancedInscriptionChains L network rand
        { tool with inscriptionTxCtxDataList := tool.inscriptionTxCtxDataList.take (24 * m) }
        (utxos.take m) p = .ok tool₂ ∧ IsBatch m tool' tool₂ := by
  have hb : IsBatch m tool
      { tool with inscriptionTxCtxDataList := tool.inscriptionTxCtxDataList.take (24 * m) } :=
    IsBatch.withCtxs (by simp [hf.txChains_eq]) (by simp [hf.chainContextMapping_eq])
  unfold buildEnhancedInscriptionChains at h ⊢
  by_cases hu : utxos.length = 0
  · simp only [hu, if_true, Except.pure_eq_ok] at h
    subst h
    exact ⟨_, by simp [hu], hb⟩
  by_cases hx : tool.inscriptionTxCtxDataList.length = 0
  · simp only [hx, if_true, if_neg hu, Except.pure_eq_ok] at h
    subst h
    exact ⟨_, by simp [hx], hb⟩
  rw [if_neg hu, if_neg hx] at h
  rw [if_neg (by simp only [List.length_take]; omega),
    if_neg (by simp only [List.length_take]; omega)]
  obtain ⟨⟨s, tool₁⟩, hl, h⟩ := Except.bind_eq_ok.1 h
  obtain ⟨r₂, h₂, hb⟩ : ∃ r₂, planLoop L network rand (utxos.take m) p
      (tool.inscriptionTxCtxDataList.take (24 * m)).length 0 0
      { tool with inscriptionTxCtxDataList := tool.inscriptionTxCtxDataList.take (24 * m) } =
      .ok r₂ ∧ IsBatch m tool₁ r₂.2 :=
    planLoop_batch (Nat.zero_le m) (by simp [hf.txChains_eq]) (by simp) (by omega)
      (by simp; omega) (by simp [hf.chainContextMapping_eq]) rfl hl
  rw [h₂, Except.ok_bind]
  exact ⟨_, rfl, (Except.pure_eq_ok.1 h) ▸ hb⟩

end Simulation

/-! ## Signing and packing a batch -/

namespace IsBatch
variable {m : ℕ} {tool tool₂ : ChainInscriptionTool η} {c : ℕ}

theorem find?_txFees (hb : IsBatch m tool tool₂) (hc : c < m) (t : ℕ) :
    tool₂.txFees.find? (fun e => e.chainIndex = c ∧ e.txIndex = t) =
      tool.txFees.find? (fun e => e.chainIndex = c ∧ e.txIndex = t) := by
  obtain ⟨rest, hfs, hrest⟩ := hb.fees_eq
  rw [hfs, find?_append_of_forall fun e he => by have := hrest e he; simp; omega]

/-- For a chain before `m`, the batch's mapping and contexts give the same context. -/
theorem contextOf_eq (hb : IsBatch m tool tool₂) (hc : c < m) (t : ℕ) :
    contextOf tool₂ c t = contextOf tool c t := by
  obtain ⟨rest, hms, hrest⟩ := hb.mapping_eq
  unfold contextOf
  rw [hms, find?_append_of_forall fun e he => by have := hrest e he; simp; omega]
  cases hf : tool₂.chainContextMapping.find? (fun e => e.chainIndex = c ∧ e.txIndex = t) with
  | none => rfl
  | some e =>
    cases hi : e.contextIndex with
    | none => simp [hi]
    | some i =>
      have := hb.index_lt e (List.mem_of_find?_eq_some hf) i hi
      rw [hb.ctxs_eq, List.length_take] at this
      simp [hi, hb.ctxs_eq, List.getElem?_take_of_lt (lt_of_lt_of_le this (min_le_left _ _))]

/-- For a chain before `m`, the batch describes a last transaction as the whole run does. -/
theorem lastTxInfo_eq (hb : IsBatch m tool tool₂) (hc : c < m) (request : InscriptionRequest)
    (t : ℕ) (last prev : Transaction η) (i : ℕ) (v : ℤ) :
    lastTxInfo L tool₂ (request.batch m) c t last prev i v =
      lastTxInfo L tool request c t last prev i v := by
  have hx := hb.contextOf_eq hc t
  unfold contextOf at hx
  simp only [lastTxInfo, hx, hb.find?_txFees hc, hb.network_eq]
  rfl

end IsBatch

/-- The signer reads the tool only for the contexts of the chain it signs, and the draws only for
that chain's signatures, whatever index it signs the chain under. -/
theorem signChain_congr {rand₂ : RandomDraws} {tool tool₂ : ChainInscriptionTool η} {c c₂ : ℕ}
    {utxo : PrevOutput} (hdraw : rand₂.signing c₂ = rand.signing c)
    (hctx : ∀ t, contextOf tool₂ c₂ t = contextOf tool c t) {chain : List (Transaction η)}
    {t : ℕ} {prevOuts : List Output} {signed : List (Transaction η)}
    (h : signChain L network rand tool c utxo chain t prevOuts = .ok signed) :
    signChain L network rand₂ tool₂ c₂ utxo chain t prevOuts = .ok signed := by
  induction chain generalizing t prevOuts signed with
  | nil => exact h
  | cons tx rest ih =>
    simp only [signChain] at h ⊢
    obtain ⟨stx, hstx, h⟩ := Except.bind_eq_ok.1 h
    obtain ⟨srest, hrest, h⟩ := Except.bind_eq_ok.1 h
    rw [rethrowWith_eq_ok] at hstx
    have hstx₂ : (if t = 0 then signTx L network tx [utxo] (rand₂.signing c₂ t)
        else signReveal L tool₂ c₂ t prevOuts tx (rand₂.signing c₂ t 0)) = .ok stx := by
      rw [hdraw]
      split_ifs at hstx ⊢
      · exact hstx
      · obtain ⟨input, o, x, hin, ho, hx, hs, rfl⟩ := signReveal_eq_ok hstx
        exact signReveal_eq L tx hin ho ((hctx t).trans hx) hs _
    rw [rethrowWith_eq_ok.2 hstx₂, Except.ok_bind, ih hrest, Except.ok_bind]
    exact h

/-- One chain of the signer's pass: a pass that succeeded on `chain :: rest` signed `chain` into
`schain` and the rest into `srest`, and a pass of another tool over another funding list, which
finds the same funding output, the same contexts and the same draws for its first chain, signs
`chain` into `schain` too. -/
theorem signChains_cons_eq_ok {tool : ChainInscriptionTool η} {utxos : List PrevOutput}
    {chain : List (Transaction η)} {rest : List (List (Transaction η))} {k : ℕ}
    {signed : List (List (Transaction η))}
    (h : signChains L network rand tool utxos (chain :: rest) k = .ok signed) :
    ∃ schain srest, signed = schain :: srest ∧
      signChains L network rand tool utxos rest (k + 1) = .ok srest ∧
      ∀ (rand₂ : RandomDraws) (tool₂ : ChainInscriptionTool η) (utxos₂ : List PrevOutput)
        (k₂ : ℕ) (rest₂ srest₂ : List (List (Transaction η))),
        rand₂.signing k₂ = rand.signing k → utxos₂[k₂]? = utxos[k]? →
        (∀ t, contextOf tool₂ k₂ t = contextOf tool k t) →
        signChains L network rand₂ tool₂ utxos₂ rest₂ (k₂ + 1) = .ok srest₂ →
        signChains L network rand₂ tool₂ utxos₂ (chain :: rest₂) k₂ = .ok (schain :: srest₂) := by
  rw [signChains] at h
  cases hu : utxos[k]?
  all_goals simp only [hu] at h
  all_goals try split_ifs at h with hkey
  all_goals
    obtain ⟨schain, hs, h⟩ := Except.bind_eq_ok.1 h
    obtain ⟨srest, hrest, h⟩ := Except.bind_eq_ok.1 h
    refine ⟨schain, srest, (Except.pure_eq_ok.1 h).symm, hrest,
      fun _ _ _ _ _ _ hdraw hu₂ hctx h₂ => ?_⟩
    rw [signChains, hu₂]
    dsimp only
  · rw [hs, Except.ok_bind, h₂]
    rfl
  · rw [if_pos hkey, hs, Except.ok_bind, h₂]
    rfl
  · rw [if_neg hkey, signChain_congr hdraw hctx hs, Except.ok_bind, h₂]
    rfl

/-- **The signer on a window of chains.** The signer's pass over the `n` chains from chain `d`
on, signed as the chains from `k₂` on of another tool, funding list and draws, signs them as the
whole pass did, where it finds the same funding outputs, contexts and draws for them. -/
theorem signChains_window {rand₂ : RandomDraws} {tool tool₂ : ChainInscriptionTool η}
    {utxos utxos₂ : List PrevOutput} {chains : List (List (Transaction η))} {k k₂ d n : ℕ}
    {signed : List (List (Transaction η))}
    (hdraw : ∀ j < n, rand₂.signing (k₂ + j) = rand.signing (k + d + j))
    (hu : ∀ j < n, utxos₂[k₂ + j]? = utxos[k + d + j]?)
    (hctx : ∀ j < n, ∀ t, contextOf tool₂ (k₂ + j) t = contextOf tool (k + d + j) t)
    (h : signChains L network rand tool utxos chains k = .ok signed) :
    signChains L network rand₂ tool₂ utxos₂ ((chains.drop d).take n) k₂ =
      .ok ((signed.drop d).take n) := by
  induction chains generalizing k k₂ d n signed with
  | nil =>
    simp only [signChains, Except.pure_eq_ok] at h
    simp [← h, signChains]
  | cons chain rest ih =>
    obtain ⟨schain, srest, rfl, hrest, hstep⟩ := signChains_cons_eq_ok h
    cases d with
    | succ d =>
      refine ih (fun j hj => ?_) (fun j hj => ?_) (fun j hj t => ?_) hrest
      · rw [hdraw j hj, show k + (d + 1) + j = k + 1 + d + j by omega]
      · rw [hu j hj, show k + (d + 1) + j = k + 1 + d + j by omega]
      · rw [hctx j hj t, show k + (d + 1) + j = k + 1 + d + j by omega]
    | zero =>
      cases n with
      | zero => simp [signChains]
      | succ n =>
        refine hstep rand₂ tool₂ utxos₂ k₂ _ _ (by simpa using hdraw 0 n.succ_pos)
          (by simpa using hu 0 n.succ_pos) (fun t => by simpa using hctx 0 n.succ_pos t)
          (@ih (k + 1) (k₂ + 1) 0 n srest (fun j hj => ?_) (fun j hj => ?_) (fun j hj t => ?_) hrest)
        · rw [show k₂ + 1 + j = k₂ + (j + 1) by omega, show k + 1 + 0 + j = k + 0 + (j + 1) by omega]
          exact hdraw (j + 1) (by omega)
        · rw [show k₂ + 1 + j = k₂ + (j + 1) by omega, show k + 1 + 0 + j = k + 0 + (j + 1) by omega]
          exact hu (j + 1) (by omega)
        · rw [show k₂ + 1 + j = k₂ + (j + 1) by omega, show k + 1 + 0 + j = k + 0 + (j + 1) by omega]
          exact hctx (j + 1) (by omega) t

/-- The packager reads the tool and the request only for the last transaction's record, whatever
index it packs the chain under. -/
theorem packChain_congr {tool tool₂ : ChainInscriptionTool η}
    {request request₂ : InscriptionRequest} {c c₂ : ℕ}
    (h : ∀ t last prev i v, lastTxInfo L tool₂ request₂ c₂ t last prev i v =
      lastTxInfo L tool request c t last prev i v) (chain : List (Transaction η)) :
    packChain L tool₂ request₂ c₂ chain = packChain L tool request c chain := by
  simp only [packChain, h]

/-- **The packager on a window of chains.** The packager's pass over the `n` chains from chain
`d` on, packed as the chains from `k₂` on of another tool and request, returns the whole pass's
records of them, where it packs each of them as the whole pass did. -/
theorem packChains_window {tool tool₂ : ChainInscriptionTool η}
    {request request₂ : InscriptionRequest} {chains : List (List (Transaction η))}
    {k k₂ d n : ℕ} {packed : List (List String × List String × Option LastTxInfo)}
    (hpack : ∀ j < n, ∀ chain, packChain L tool₂ request₂ (k₂ + j) chain =
      packChain L tool request (k + d + j) chain)
    (h : packChains L tool request chains k = .ok packed) :
    packChains L tool₂ request₂ ((chains.drop d).take n) k₂ = .ok ((packed.drop d).take n) := by
  induction chains generalizing k k₂ d n packed with
  | nil =>
    simp only [packChains, Except.pure_eq_ok] at h
    simp [← h, packChains]
  | cons chain rest ih =>
    rw [packChains] at h
    obtain ⟨x, hx, h⟩ := Except.bind_eq_ok.1 h
    obtain ⟨xs, hxs, h⟩ := Except.bind_eq_ok.1 h
    rw [← Except.pure_eq_ok.1 h]
    cases d with
    | succ d =>
      refine ih (fun j hj chain => ?_) hxs
      rw [hpack j hj, show k + (d + 1) + j = k + 1 + d + j by omega]
    | zero =>
      cases n with
      | zero => simp [packChains]
      | succ n =>
        have h₂ := @ih (k + 1) (k₂ + 1) 0 n xs (fun j hj chain => ?_) hxs
        · simp only [List.drop_zero, List.take_succ_cons] at h₂ ⊢
          rw [packChains, show packChain L tool₂ request₂ k₂ chain = packChain L tool request k chain
            by simpa using hpack 0 n.succ_pos chain, hx, Except.ok_bind, h₂]
          rfl
        · rw [show k₂ + 1 + j = k₂ + (j + 1) by omega, show k + 1 + 0 + j = k + 0 + (j + 1) by omega]
          exact hpack (j + 1) (by omega) chain

theorem length_of_packChains_eq_ok {tool : ChainInscriptionTool η}
    {request : InscriptionRequest} :
    ∀ {chains : List (List (Transaction η))} {k : ℕ}
      {packed : List (List String × List String × Option LastTxInfo)},
      packChains L tool request chains k = .ok packed → packed.length = chains.length
  | [], _, _, h => by
    simp only [packChains, Except.pure_eq_ok] at h
    simp [← h]
  | _ :: _, _, _, h => by
    rw [packChains] at h
    obtain ⟨x, -, h⟩ := Except.bind_eq_ok.1 h
    obtain ⟨xs, hxs, h⟩ := Except.bind_eq_ok.1 h
    rw [← Except.pure_eq_ok.1 h, List.length_cons, length_of_packChains_eq_ok hxs,
      List.length_cons]

/-- Every chain of a successful run is packed with its last transaction's record. -/
theorem length_filterMap_of_packChains {request : InscriptionRequest}
    {tool : ChainInscriptionTool η} {packed : List (List String × List String × Option LastTxInfo)}
    (hn : newChainInscriptionTool L network rand request = .ok tool)
    (hp : packChains L tool request tool.txChains 0 = .ok packed) :
    (packed.filterMap (·.2.2)).length = packed.length := by
  obtain ⟨ctxs, chains, feess, hr⟩ := newChainInscriptionTool_eq_ok hn
  have hres := hr.inscribeChain_eq hn
  rw [inscribeChain_eq_of_ok hn hp] at hres
  exact hres.lastTxDetails_length.trans (length_of_packChains_eq_ok hp).symm

/-- The packager on a batch packs the first `m` of the whole pass's chains. -/
theorem IsBatch.packChains_eq_ok {m : ℕ} {tool tool₂ : ChainInscriptionTool η}
    {request : InscriptionRequest} {packed : List (List String × List String × Option LastTxInfo)}
    (hb : IsBatch m tool tool₂) (hp : packChains L tool request tool.txChains 0 = .ok packed) :
    packChains L tool₂ (request.batch m) tool₂.txChains 0 = .ok (packed.take m) := by
  have h₂ := @packChains_window η L tool tool₂ request (request.batch m) tool.txChains 0 0 0 m
    packed (fun j hj => by simpa using packChain_congr (hb.lastTxInfo_eq hj request)) hp
  rwa [List.drop_zero, List.drop_zero, ← hb.chains_eq] at h₂

theorem IsBatch.signAllTransactions {m : ℕ} {tool tool' tool₂ : ChainInscriptionTool η}
    {utxos : List PrevOutput} (hb : IsBatch m tool tool₂)
    (h : signAllTransactions L network rand tool utxos = .ok tool') :
    ∃ tool₂', signAllTransactions L network rand tool₂ (utxos.take m) = .ok tool₂' ∧
      IsBatch m tool' tool₂' := by
  obtain ⟨signed, hs, rfl⟩ := signAllTransactions_eq_ok h
  have hs₂ := @signChains_window η L network rand rand tool tool₂ utxos (utxos.take m) tool.txChains
    0 0 0 m signed (fun j _ => by simp) (fun j hj => by simp [List.getElem?_take_of_lt hj])
    (fun j hj t => by simpa using hb.contextOf_eq hj t) hs
  rw [List.drop_zero, List.drop_zero, ← hb.chains_eq] at hs₂
  exact ⟨_, signAllTransactions_eq hs₂,
    ⟨hb.network_eq, hb.ctxs_eq, rfl, hb.fees_eq, hb.mapping_eq, hb.index_lt⟩⟩

/-! ## A request in batches -/

/-- The key check passes on every list of funding outputs that all have a key. -/
theorem checkPrivateKeys_of_forall {us : List PrevOutput} (h : ∀ u ∈ us, u.privateKey ≠ "")
    (i : ℕ) : checkPrivateKeys us i = .ok () := by
  induction us generalizing i with
  | nil => rfl
  | cons u us ih =>
    rw [checkPrivateKeys, if_neg (h u (List.mem_cons_self u us))]
    exact ih (fun v hv => h v (List.mem_cons_of_mem u hv)) (i + 1)

/-- A `mapM` in `Except` succeeds where its function succeeds on every element. -/
theorem mapM_eq_ok_of_forall₂ {α β ε : Type} {f : α → Except ε β} {as : List α} {bs : List β}
    (h : List.Forall₂ (fun a b => f a = .ok b) as bs) : as.mapM f = .ok bs := by
  induction h with
  | nil => rfl
  | cons hb _ ih =>
    rw [List.mapM_cons, hb, Except.ok_bind, ih]
    rfl

/-- Where a `filterMap` keeps every element, it commutes with cutting the list. -/
theorem filterMap_take_drop_of_length_eq {α β : Type} {f : α → Option β} {l : List α}
    (h : (l.filterMap f).length = l.length) (n : ℕ) :
    (l.take n).filterMap f = (l.filterMap f).take n ∧
      (l.drop n).filterMap f = (l.filterMap f).drop n := by
  induction l generalizing n with
  | nil => simp
  | cons a l ih =>
    cases hfa : f a with
    | none =>
      have := List.length_filterMap_le f l
      simp [hfa] at h
      omega
    | some b =>
      simp only [List.filterMap_cons, hfa, List.length_cons, add_left_inj] at h
      cases n with
      | zero => simp
      | succ n => simp [hfa, ih h n]

section Request
variable {request : InscriptionRequest} {m : ℕ}

/-- The tool on a batch: a request the tool is built for gives, cut to its first `m` chains, a
tool that is a batch of the whole one. -/
theorem newChainInscriptionTool_batch {tool : ChainInscriptionTool η} (hm : 0 < m)
    (h : newChainInscriptionTool L network rand request = .ok tool) :
    ∃ tool₂, newChainInscriptionTool L network rand (request.batch m) = .ok tool₂ ∧
      IsBatch m tool tool₂ := by
  unfold newChainInscriptionTool at h ⊢
  split at h
  · cases h
  next primary rest hl =>
  split at h
  · cases h
  next hne =>
  obtain ⟨⟨⟩, hk, h⟩ := Except.bind_eq_ok.1 h
  obtain ⟨ctxs, hctxs, h⟩ := Except.bind_eq_ok.1 h
  obtain ⟨plan, hplan, hs⟩ := Except.bind_eq_ok.1 h
  obtain ⟨plan₂, hplan₂, hb⟩ :=
    buildEnhancedInscriptionChains_batch hm (startTool_fresh network ctxs) hplan
  obtain ⟨tool₂, hs₂, hb⟩ := hb.signAllTransactions hs
  obtain ⟨m, rfl⟩ : ∃ m', m = m' + 1 := ⟨m - 1, by omega⟩
  have hk₂ : checkPrivateKeys (request.commitTxPrevOutputList.take (m + 1)) 0 = .ok () :=
    checkPrivateKeys_of_forall (fun u hu => checkPrivateKeys_eq_ok hk u (List.mem_of_mem_take hu)) 0
  rw [hl, List.take_succ_cons] at hk₂ hplan₂ hs₂
  have hdata : ¬(request.inscriptionDataList.take (24 * (m + 1))).isEmpty = true := by
    cases hd : request.inscriptionDataList with
    | nil => simp [hd] at hne
    | cons d ds => rw [show 24 * (m + 1) = 24 * m + 23 + 1 by omega, List.take_succ_cons]; simp
  simp only [InscriptionRequest.batch_commitTxPrevOutputList, hl, List.take_succ_cons,
    InscriptionRequest.batch_inscriptionDataList, InscriptionRequest.batch_chainParams]
  rw [if_neg hdata]
  exact ⟨tool₂, Except.bind_eq_ok.2 ⟨(), hk₂, Except.bind_eq_ok.2 ⟨_,
    mapM_eq_ok_of_forall₂ (List.forall₂_take _ (forall₂_of_mapM_eq_ok hctxs)),
    Except.bind_eq_ok.2 ⟨plan₂, hplan₂, hs₂⟩⟩⟩, hb⟩

/-- A request in batches of chains, with the same draws: when `inscribeChain` succeeds on a
request, it succeeds on the request's first `m` funding outputs and first `24 m` inscriptions,
for any `m > 0`, and returns the first `m` chains of the whole result: the same transactions,
ids and records. -/
theorem inscribeChain_batch_same_draws (hm : 0 < m)
    (h : (inscribeChain L network rand request).success = true) :
    (inscribeChain L network rand (request.batch m)).success = true ∧
      (inscribeChain L network rand (request.batch m)).txChains =
        (inscribeChain L network rand request).txChains.take m ∧
      (inscribeChain L network rand (request.batch m)).txChainTxIds =
        (inscribeChain L network rand request).txChainTxIds.take m ∧
      (inscribeChain L network rand (request.batch m)).lastTxDetails =
        (inscribeChain L network rand request).lastTxDetails.take m := by
  obtain ⟨tool, packed, hn, hp, heq⟩ := inscribeChain_eq_of_success h
  obtain ⟨tool₂, hn₂, hb⟩ := newChainInscriptionTool_batch hm hn
  rw [inscribeChain_eq_of_ok hn₂ (hb.packChains_eq_ok hp), heq]
  exact ⟨rfl, List.map_take _ _ _, List.map_take _ _ _,
    (filterMap_take_drop_of_length_eq (length_filterMap_of_packChains hn hp) m).1⟩

/-- **A request in batches of chains.** On a library whose size reads only a transaction's
shape, when `inscribeChain` succeeds on a request, a run with any draws on the request's first
`m` funding outputs and first `24 m` inscriptions, for any `m > 0`, succeeds and returns the
first `m` chains of the whole result: the same ids, and the same chains and records up to the
hex of their transactions, which carries the signatures' draws. -/
theorem inscribeChain_batch (hsize : ShapeSized L network) (hm : 0 < m)
    (h : (inscribeChain L network rand request).success = true) (rand₂ : RandomDraws) :
    (inscribeChain L network rand₂ (request.batch m)).success = true ∧
      (inscribeChain L network rand₂ (request.batch m)).txChainTxIds =
        (inscribeChain L network rand request).txChainTxIds.take m ∧
      (inscribeChain L network rand₂ (request.batch m)).eraseHex.txChains =
        (inscribeChain L network rand request).eraseHex.txChains.take m ∧
      (inscribeChain L network rand₂ (request.batch m)).eraseHex.lastTxDetails =
        (inscribeChain L network rand request).eraseHex.lastTxDetails.take m := by
  obtain ⟨hs, hc, hi, hl⟩ := inscribeChain_batch_same_draws hm h
  have hd := inscribeChain_draws hsize rand₂ rand (request.batch m)
  refine ⟨(congrArg ChainInscribeResult.success hd).trans hs,
    (congrArg ChainInscribeResult.txChainTxIds hd).trans hi, ?_, ?_⟩ <;>
  · rw [hd]
    simp only [ChainInscribeResult.eraseHex, hc, hl, List.map_take]

/-- Two chains on the reference library: a run with other draws on the batch of the first one
returns the whole run's first chain. -/
theorem inscribeChain_batch_at_two_chains :
    ShapeSized refLib .testnet ∧ 0 < 1 ∧
      (inscribeChain refLib .testnet refDraws
        (refRequest [refFunding 100000, refFunding 20000] 25)).success = true ∧
      (inscribeChain refLib .testnet refOnesDraws
        ((refRequest [refFunding 100000, refFunding 20000] 25).batch 1)).success = true ∧
      (inscribeChain refLib .testnet refOnesDraws
        ((refRequest [refFunding 100000, refFunding 20000] 25).batch 1)).txChainTxIds =
        (inscribeChain refLib .testnet refDraws
          (refRequest [refFunding 100000, refFunding 20000] 25)).txChainTxIds.take 1 ∧
      (inscribeChain refLib .testnet refOnesDraws
        ((refRequest [refFunding 100000, refFunding 20000] 25).batch 1)).eraseHex.txChains =
        (inscribeChain refLib .testnet refDraws
          (refRequest [refFunding 100000, refFunding 20000] 25)).eraseHex.txChains.take 1 ∧
      (inscribeChain refLib .testnet refOnesDraws
        ((refRequest [refFunding 100000, refFunding 20000] 25).batch 1)).eraseHex.lastTxDetails =
        (inscribeChain refLib .testnet refDraws
          (refRequest [refFunding 100000, refFunding 20000] 25)).eraseHex.lastTxDetails.take 1 :=
  ⟨refLib_shapeSized .testnet, Nat.one_pos, by decide,
    inscribeChain_batch (refLib_shapeSized .testnet) Nat.one_pos (by decide) refOnesDraws⟩

end Request

end ChainInscription
