import ChainInscription.Batches

/-!
# The rest of a request, from chain `m` on

The companion of `InscriptionRequest.batch`: `InscriptionRequest.remainder` keeps the funding
outputs from `m` on and the inscriptions from `24 m` on. Every context of a request is made with
the key of its first funding output, so the remainder rebuilds the whole run's chains only when
its own first funding output, output `m` of the whole request, carries that key. It then returns
exactly the whole result's chains from `m` on, with the same transactions, ids and records.

The whole run first builds chains `0` to `m - 1`, which the remainder run never sees, and records
them under chain indices below `m`. From chain `m` on both runs take the same passes, chain
`m + c` of the one being chain `c` of the other: the builder builds the same chain whatever
indices it records under (`buildSingleUtxoChain_reindex`). `IsRemainder` names how the two tools
correspond: the whole run's ledger and mapping are entries of the first `m` chains followed by
the remainder's entries, moved by `m` chains and `24 m` inscriptions.

The last section puts the two halves together. The entries of the first `m` chains are exactly
the batch's ledger, so the whole run's ledger is the batch's followed by the remainder's, and the
totals of the two requests add up to the whole request's.
-/

namespace ChainInscription

variable {η : Type} {L : BitcoinLib η} {network : Network} {rand : RandomDraws}

/-- The request for the chains from `m` on: the funding outputs from `m` on and the inscriptions
from `24 m` on, with the same settings. -/
def InscriptionRequest.remainder (request : InscriptionRequest) (m : ℕ) : InscriptionRequest :=
  { request with
    commitTxPrevOutputList := request.commitTxPrevOutputList.drop m
    inscriptionDataList := request.inscriptionDataList.drop (24 * m) }

section RemainderFields
variable (request : InscriptionRequest) (m : ℕ)

@[simp] theorem InscriptionRequest.remainder_commitTxPrevOutputList :
    (request.remainder m).commitTxPrevOutputList = request.commitTxPrevOutputList.drop m := rfl
@[simp] theorem InscriptionRequest.remainder_inscriptionDataList :
    (request.remainder m).inscriptionDataList = request.inscriptionDataList.drop (24 * m) := rfl
@[simp] theorem InscriptionRequest.remainder_chainParams :
    (request.remainder m).chainParams = request.chainParams := rfl

end RemainderFields

/-! ## Entries moved to later chains -/

/-- A ledger entry of chain `c` as an entry of chain `m + c`. -/
def TxFee.shift (m : ℕ) (e : TxFee) : TxFee := { e with chainIndex := m + e.chainIndex }

/-- A mapping entry of chain `c` as an entry of chain `m + c`, its context `d` places later. -/
def ContextMapping.shift (m d : ℕ) (e : ContextMapping) : ContextMapping :=
  { e with chainIndex := m + e.chainIndex, contextIndex := e.contextIndex.map (d + ·) }

theorem map_shift_feeEntries (m c t : ℕ) (fs : List ℤ) :
    (feeEntries c t fs).map (TxFee.shift m) = feeEntries (m + c) t fs := by
  induction fs generalizing t with
  | nil => rfl
  | cons f fs ih => simp [feeEntries, TxFee.shift, ih]

theorem map_shift_revealMappings (m d c t i n : ℕ) :
    (revealMappings c t i n).map (ContextMapping.shift m d) =
      revealMappings (m + c) t (d + i) n := by
  simp [revealMappings_eq, ContextMapping.shift, Nat.add_assoc]

/-! ## What the whole run's tool and the remainder's share -/

/-- `tool₂` is what a run on the chains from `m` on has of the whole run's `tool`, chain `c` of
it being chain `m + c` of the whole run: the same network, the contexts from `24 m` on and the
chains from `m` on; the ledger and the mapping of `tool` are entries of the chains before `m`
followed by those of `tool₂`, moved by `m` chains and `24 m` inscriptions. -/
structure IsRemainder (m : ℕ) (tool tool₂ : ChainInscriptionTool η) : Prop where
  network_eq : tool₂.network = tool.network
  ctxs_eq : tool₂.inscriptionTxCtxDataList = tool.inscriptionTxCtxDataList.drop (24 * m)
  chains_eq : tool₂.txChains = tool.txChains.drop m
  fees_eq : ∃ pre, tool.txFees = pre ++ tool₂.txFees.map (TxFee.shift m) ∧
    ∀ e ∈ pre, e.chainIndex < m
  mapping_eq : ∃ pre, tool.chainContextMapping =
      pre ++ tool₂.chainContextMapping.map (ContextMapping.shift m (24 * m)) ∧
    ∀ e ∈ pre, e.chainIndex < m

namespace IsRemainder
variable {m : ℕ} {tool tool₂ : ChainInscriptionTool η}

/-- Once the whole run has built its first `m` chains, a fresh tool on the contexts from `24 m`
on is a remainder of it. -/
theorem start (hk : tool.txChains.length ≤ m) (hfs : ∀ e ∈ tool.txFees, e.chainIndex < m)
    (hms : ∀ e ∈ tool.chainContextMapping, e.chainIndex < m) :
    IsRemainder m tool (startTool tool.network (tool.inscriptionTxCtxDataList.drop (24 * m))) :=
  ⟨rfl, rfl, (List.drop_eq_nil_of_le hk).symm,
    ⟨tool.txFees, by simp [startTool, ChainInscriptionTool.init], hfs⟩,
    ⟨tool.chainContextMapping, by simp [startTool, ChainInscriptionTool.init], hms⟩⟩

/-- A pass of both runs, over chain `m + c₂` of the whole run and chain `c₂` of the remainder,
from inscription `24 m + s₂` and `s₂` on, keeps the remainder. -/
theorem push (hb : IsRemainder m tool tool₂) {c₂ : ℕ} (hc : tool.txChains.length = m + c₂)
    (s₂ : ℕ) (chain : List (Transaction η)) (fees : List ℤ) (n : ℕ) :
    IsRemainder m
      { tool.recordAll (feeEntries (m + c₂) 0 fees)
          (⟨m + c₂, 0, none⟩ :: revealMappings (m + c₂) 1 (24 * m + s₂) n) with
        txChains := tool.txChains ++ [chain] }
      { tool₂.recordAll (feeEntries c₂ 0 fees) (⟨c₂, 0, none⟩ :: revealMappings c₂ 1 s₂ n) with
        txChains := tool₂.txChains ++ [chain] } := by
  obtain ⟨hn, hx, hc', ⟨fs, hfs, hfs'⟩, ⟨ms, hms, hms'⟩⟩ := hb
  have hm : m ≤ tool.txChains.length := hc ▸ Nat.le_add_right m c₂
  refine ⟨hn, hx, by simp [hc', List.drop_append_of_le_length hm], ⟨fs, ?_, hfs'⟩,
    ⟨ms, ?_, hms'⟩⟩
  · simp [hfs, map_shift_feeEntries]
  · simp [hms, map_shift_revealMappings, ContextMapping.shift]

theorem find?_txFees (hb : IsRemainder m tool tool₂) (c t : ℕ) :
    tool.txFees.find? (fun e => e.chainIndex = m + c ∧ e.txIndex = t) =
      (tool₂.txFees.find? fun e => e.chainIndex = c ∧ e.txIndex = t).map (TxFee.shift m) := by
  obtain ⟨pre, hfs, hpre⟩ := hb.fees_eq
  have hnone : pre.find? (fun e => e.chainIndex = m + c ∧ e.txIndex = t) = none :=
    List.find?_eq_none.2 fun e he => by have := hpre e he; simp; omega
  rw [hfs, List.find?_append, hnone, Option.none_or, List.find?_map]
  congr 2
  funext e
  simp [TxFee.shift]

/-- Chain `m + c` of the whole run gets the context that chain `c` of the remainder gets. -/
theorem contextOf_eq (hb : IsRemainder m tool tool₂) (c t : ℕ) :
    contextOf tool (m + c) t = contextOf tool₂ c t := by
  obtain ⟨pre, hms, hpre⟩ := hb.mapping_eq
  have hnone : pre.find? (fun e => e.chainIndex = m + c ∧ e.txIndex = t) = none :=
    List.find?_eq_none.2 fun e he => by have := hpre e he; simp; omega
  have hpred : ((fun e : ContextMapping => decide (e.chainIndex = m + c ∧ e.txIndex = t)) ∘
      ContextMapping.shift m (24 * m)) = fun e => decide (e.chainIndex = c ∧ e.txIndex = t) := by
    funext e
    simp [ContextMapping.shift]
  unfold contextOf
  rw [hms, List.find?_append, hnone, Option.none_or, List.find?_map, hpred, hb.ctxs_eq]
  cases tool₂.chainContextMapping.find? (fun e => e.chainIndex = c ∧ e.txIndex = t) with
  | none => rfl
  | some e =>
    rcases e with ⟨c', t', _ | i⟩ <;> simp [ContextMapping.shift, List.getElem?_drop]

/-- Chain `c` of the remainder is described as chain `m + c` of the whole run. -/
theorem lastTxInfo_eq (hb : IsRemainder m tool tool₂) (request : InscriptionRequest) (c t : ℕ)
    (last prev : Transaction η) (i : ℕ) (v : ℤ) :
    lastTxInfo L tool₂ (request.remainder m) c t last prev i v =
      lastTxInfo L tool request (m + c) t last prev i v := by
  have hx := hb.contextOf_eq c t
  unfold contextOf at hx
  simp only [lastTxInfo, ← hx, hb.find?_txFees, Option.map_map, hb.network_eq]
  rfl

end IsRemainder

theorem IsRemainder.signAllTransactions {m : ℕ} {tool tool' tool₂ : ChainInscriptionTool η}
    {utxos : List PrevOutput} (hb : IsRemainder m tool tool₂)
    (h : signAllTransactions L network rand tool utxos = .ok tool') :
    ∃ tool₂', signAllTransactions L network (rand.shift m) tool₂ (utxos.drop m) = .ok tool₂' ∧
      IsRemainder m tool' tool₂' := by
  obtain ⟨signed, hs, rfl⟩ := signAllTransactions_eq_ok h
  have hlen := (signChains_eq_ok hs).1
  have hs₂ := @signChains_window η L network rand (rand.shift m) tool tool₂ utxos (utxos.drop m)
    tool.txChains 0 0 m tool.txChains.length signed (fun j _ => by simp)
    (fun j _ => by simp [List.getElem?_drop])
    (fun j _ t => by simpa using (hb.contextOf_eq j t).symm) hs
  rw [List.take_of_length_le (by simp), List.take_of_length_le (by simp [hlen]),
    ← hb.chains_eq] at hs₂
  exact ⟨_, signAllTransactions_eq hs₂,
    ⟨hb.network_eq, hb.ctxs_eq, by simp [hb.chains_eq], hb.fees_eq, hb.mapping_eq⟩⟩

/-- The packager on a remainder packs the whole pass's chains from `m` on. -/
theorem IsRemainder.packChains_eq_ok {m : ℕ} {tool tool₂ : ChainInscriptionTool η}
    {request : InscriptionRequest} {packed : List (List String × List String × Option LastTxInfo)}
    (hb : IsRemainder m tool tool₂) (hp : packChains L tool request tool.txChains 0 = .ok packed) :
    packChains L tool₂ (request.remainder m) tool₂.txChains 0 = .ok (packed.drop m) := by
  have h₂ := @packChains_window η L tool tool₂ request (request.remainder m) tool.txChains 0 0
    m tool.txChains.length packed
    (fun j _ chain => by simpa using packChain_congr (hb.lastTxInfo_eq request j) chain) hp
  rwa [List.take_of_length_le (by simp),
    List.take_of_length_le (by simp [length_of_packChains_eq_ok hp]), ← hb.chains_eq] at h₂

/-! ## The planner on the remainder -/

theorem slice_drop {α : Type} (xs : List α) (k start stop : ℕ) :
    slice (xs.drop k) start stop = slice xs (k + start) (k + stop) := by
  simp only [slice, List.drop_drop]
  congr 1
  omega

section Simulation
variable {p : ChainParams} {utxos : List PrevOutput} {m : ℕ} {fuel fuel₂ u s : ℕ}
  {tool tool₂ : ChainInscriptionTool η} {r : ℕ × ChainInscriptionTool η}

/-- **The planner from chain `m` on.** From chain `m` on the whole run and the remainder run take
the same passes, chain `m + u₂` and inscription `24 m + s₂` of the one being chain `u₂` and
inscription `s₂` of the other, and keep the remainder. -/
theorem planLoop_remainder {u₂ s₂ : ℕ} (hu : u = m + u₂) (hk : tool.txChains.length = u)
    (hs : s = min (24 * u) tool.inscriptionTxCtxDataList.length) (hs₂ : s = 24 * m + s₂)
    (hfuel : tool.inscriptionTxCtxDataList.length ≤ 24 * (u + fuel))
    (hfuel₂ : tool.inscriptionTxCtxDataList.length ≤ 24 * (u + fuel₂))
    (hb : IsRemainder m tool tool₂) (h : planLoop L network rand utxos p fuel s u tool = .ok r) :
    ∃ r₂, planLoop L network (rand.shift m) (utxos.drop m) p fuel₂ s₂ u₂ tool₂ = .ok r₂ ∧
      IsRemainder m r.2 r₂.2 := by
  induction fuel generalizing fuel₂ u s u₂ s₂ tool tool₂ with
  | zero =>
    rw [planLoop_of_le (by omega), Except.ok.injEq] at h
    subst h
    exact ⟨_, planLoop_of_le (by rw [hb.ctxs_eq, List.length_drop]; omega), hb⟩
  | succ fuel ih =>
    have hn₂ : tool₂.inscriptionTxCtxDataList.length =
        tool.inscriptionTxCtxDataList.length - 24 * m := by
      rw [hb.ctxs_eq, List.length_drop]
    by_cases hsn : s < tool.inscriptionTxCtxDataList.length
    swap
    · rw [planLoop_of_le (not_lt.1 hsn), Except.ok.injEq] at h
      subst h
      exact ⟨_, planLoop_of_le (by omega), hb⟩
    have hcount : u < utxos.length := by
      by_contra hc
      simp [planLoop, hsn, not_lt.1 hc] at h
    obtain ⟨fuel₂, rfl⟩ : ∃ f, fuel₂ = f + 1 := ⟨fuel₂ - 1, by omega⟩
    subst hu hs₂
    obtain ⟨hsl, hpos⟩ := slice_length_of_lt _ hsn
    simp only [maxInscriptionsPerChain_eq] at hsl hpos
    obtain ⟨cnt, hcnt⟩ : ∃ cnt,
        min (tool.inscriptionTxCtxDataList.length - (24 * m + s₂)) 24 = cnt := ⟨_, rfl⟩
    obtain ⟨xs, hxs⟩ : ∃ xs,
        slice tool.inscriptionTxCtxDataList (24 * m + s₂) (24 * m + s₂ + cnt) = xs := ⟨_, rfl⟩
    rw [hcnt, hxs] at hsl
    rw [hcnt] at hpos
    obtain ⟨utxo, hutxo⟩ : ∃ utxo, utxos[m + u₂]? = some utxo :=
      ⟨_, List.getElem?_eq_getElem hcount⟩
    rw [planLoop_succ_eq hsn hutxo hcnt hxs hk] at h
    rw [planLoop_succ_eq (by omega) (by rw [List.getElem?_drop, hutxo])
      (show min (tool₂.inscriptionTxCtxDataList.length - s₂) 24 = cnt by rw [hn₂, ← hcnt]; omega)
      (show slice tool₂.inscriptionTxCtxDataList s₂ (s₂ + cnt) = xs by
        rw [hb.ctxs_eq, slice_drop, ← hxs, Nat.add_assoc])
      (show tool₂.txChains.length = u₂ by simp [hb.chains_eq, hk])]
    obtain ⟨⟨chain, tool₁⟩, hbuild, h⟩ := Except.bind_eq_ok.1 h
    obtain ⟨chain', fees, hne, hres, h₂⟩ := buildSingleUtxoChain_reindex s₂ u₂ tool₂
      (List.ne_nil_of_length_pos (by omega)) hbuild
    rw [RandomDraws.shift_sizing, h₂, Except.ok_bind]
    simp only [Prod.mk.injEq] at hres
    obtain ⟨rfl, rfl⟩ := hres
    simp only [List.length_pos.2 hne, if_true] at h ⊢
    exact ih (by omega) (by simp [hk]) (by simp; omega) (by omega) (by simp; omega)
      (by simp; omega) (hb.push hk _ _ _ _) h

/-- **The planner up to chain `m`.** The whole run's passes before chain `m`, which the remainder
run never sees, record entries of chains below `m` only; the remainder run, started fresh on the
contexts from `24 m` on, then takes the whole run's later passes. -/
theorem planLoop_remainder_of_le (hu : u ≤ m) (hk : tool.txChains.length = u)
    (hs : s = min (24 * u) tool.inscriptionTxCtxDataList.length)
    (hfuel : tool.inscriptionTxCtxDataList.length ≤ 24 * (u + fuel))
    (hmn : 24 * m < tool.inscriptionTxCtxDataList.length)
    (hfs : ∀ e ∈ tool.txFees, e.chainIndex < u)
    (hms : ∀ e ∈ tool.chainContextMapping, e.chainIndex < u)
    (h : planLoop L network rand utxos p fuel s u tool = .ok r) :
    ∃ r₂, planLoop L network (rand.shift m) (utxos.drop m) p
        (tool.inscriptionTxCtxDataList.length - 24 * m) 0 0
        (startTool tool.network (tool.inscriptionTxCtxDataList.drop (24 * m))) = .ok r₂ ∧
      IsRemainder m r.2 r₂.2 := by
  induction fuel generalizing u s tool with
  | zero => omega
  | succ fuel ih =>
    by_cases hum : u = m
    · subst hum
      exact planLoop_remainder (Nat.add_zero u).symm hk hs (by omega) hfuel (by omega)
        (IsRemainder.start hk.le hfs hms) h
    have hsn : s < tool.inscriptionTxCtxDataList.length := by omega
    have hcount : u < utxos.length := by
      by_contra hc
      simp [planLoop, hsn, not_lt.1 hc] at h
    rw [planLoop_succ_of_lt hsn hcount] at h
    obtain ⟨hsl, hpos⟩ := slice_length_of_lt _ hsn
    simp only [maxInscriptionsPerChain_eq] at hsl hpos
    obtain ⟨⟨chain, tool₁⟩, hbuild, h⟩ := Except.bind_eq_ok.1 h
    obtain ⟨chain', fees, hne, hres, -⟩ := buildSingleUtxoChain_reindex 0 0 tool
      (List.ne_nil_of_length_pos (by omega)) hbuild
    simp only [Prod.mk.injEq] at hres
    obtain ⟨rfl, rfl⟩ := hres
    simp only [List.length_pos.2 hne, if_true] at h
    refine (@ih (u + 1) _ _ (by omega) (by simp [hk]) (by simp; omega) (by simp; omega)
      (by simpa using hmn) (fun e he => ?_) (fun e he => ?_) h :)
    · simp only [ChainInscriptionTool.recordAll_txFees, List.mem_append] at he
      rcases he with he | he
      · exact Nat.lt_succ_of_lt (hfs e he)
      · rw [chainIndex_of_mem_feeEntries he, hk]; exact Nat.lt_succ_self u
    · simp only [ChainInscriptionTool.recordAll_chainContextMapping, List.mem_append,
        List.mem_cons] at he
      rcases he with he | rfl | he
      · exact Nat.lt_succ_of_lt (hms e he)
      · simp [hk]
      · rw [(of_mem_revealMappings he).1, hk]; exact Nat.lt_succ_self u

/-- The planner's entry on the remainder: on a fresh tool whose plan reaches chain `m`, the
remainder's funding outputs and contexts give the plan's chains from `m` on. -/
theorem buildEnhancedInscriptionChains_remainder {tool tool' : ChainInscriptionTool η}
    (hmu : m < utxos.length) (hmn : 24 * m < tool.inscriptionTxCtxDataList.length)
    (hf : tool.Fresh) (h : buildEnhancedInscriptionChains L network rand tool utxos p = .ok tool') :
    ∃ tool₂, buildEnhancedInscriptionChains L network (rand.shift m)
        (startTool tool.network (tool.inscriptionTxCtxDataList.drop (24 * m))) (utxos.drop m) p =
        .ok tool₂ ∧ IsRemainder m tool' tool₂ := by
  unfold buildEnhancedInscriptionChains at h ⊢
  rw [if_neg (by omega), if_neg (by omega)] at h
  rw [if_neg (by simp only [List.length_drop]; omega),
    if_neg (by simp only [startTool, List.length_drop]; omega)]
  obtain ⟨⟨s, tool₁⟩, hl, h⟩ := Except.bind_eq_ok.1 h
  obtain ⟨r₂, h₂, hb⟩ := planLoop_remainder_of_le (Nat.zero_le m) (by simp [hf.txChains_eq])
    (by simp) (by omega) hmn (by simp [hf.txFees_eq]) (by simp [hf.chainContextMapping_eq]) hl
  rw [show (startTool tool.network (tool.inscriptionTxCtxDataList.drop (24 * m)) :
      ChainInscriptionTool η).inscriptionTxCtxDataList.length =
      tool.inscriptionTxCtxDataList.length - 24 * m from List.length_drop _ _, h₂, Except.ok_bind]
  exact ⟨_, rfl, (Except.pure_eq_ok.1 h) ▸ hb⟩

end Simulation

/-! ## The remainder of a request -/

section Request
variable {request : InscriptionRequest} {m : ℕ}

/-- The tool on the remainder: a request the tool is built for gives, from chain `m` on, a tool
that is a remainder of the whole one, when its funding output `m` has the first one's key. -/
theorem newChainInscriptionTool_remainder {tool : ChainInscriptionTool η}
    (hmn : 24 * m < request.inscriptionDataList.length)
    (hkey : request.commitTxPrevOutputList[m]?.map PrevOutput.privateKey =
      request.commitTxPrevOutputList[0]?.map PrevOutput.privateKey)
    (h : newChainInscriptionTool L network rand request = .ok tool) :
    ∃ tool₂, newChainInscriptionTool L network (rand.shift m) (request.remainder m) = .ok tool₂ ∧
      IsRemainder m tool tool₂ := by
  unfold newChainInscriptionTool at h ⊢
  split at h
  · cases h
  next primary rest hl =>
  split at h
  · cases h
  obtain ⟨⟨⟩, hk, h⟩ := Except.bind_eq_ok.1 h
  obtain ⟨ctxs, hctxs, h⟩ := Except.bind_eq_ok.1 h
  obtain ⟨plan, hplan, hs⟩ := Except.bind_eq_ok.1 h
  obtain ⟨u, hu, hukey⟩ : ∃ u, request.commitTxPrevOutputList[m]? = some u ∧
      u.privateKey = primary.privateKey := by
    rw [hl] at hkey ⊢
    cases h' : (primary :: rest)[m]? <;> simp_all
  obtain ⟨hmu, hum⟩ := List.getElem?_eq_some_iff.1 hu
  have hf₂ := forall₂_of_mapM_eq_ok hctxs
  obtain ⟨plan₂, hplan₂, hb⟩ := buildEnhancedInscriptionChains_remainder hmu
    (by simpa [startTool, ← hf₂.length_eq] using hmn) (startTool_fresh network ctxs) hplan
  obtain ⟨tool₂, hs₂, hb⟩ := hb.signAllTransactions hs
  have hdrop : request.commitTxPrevOutputList.drop m =
      u :: request.commitTxPrevOutputList.drop (m + 1) := by
    rw [List.drop_eq_getElem_cons hmu, hum]
  rw [hdrop] at hplan₂ hs₂
  simp only [InscriptionRequest.remainder_commitTxPrevOutputList, hdrop,
    InscriptionRequest.remainder_inscriptionDataList, InscriptionRequest.remainder_chainParams]
  rw [if_neg (by simp; omega), hukey]
  exact ⟨tool₂, Except.bind_eq_ok.2 ⟨(), checkPrivateKeys_of_forall (fun v hv =>
    checkPrivateKeys_eq_ok hk v (by rw [← hdrop] at hv; exact List.mem_of_mem_drop hv)) 0,
    Except.bind_eq_ok.2 ⟨_, mapM_eq_ok_of_forall₂ (List.forall₂_drop _ hf₂),
      Except.bind_eq_ok.2 ⟨plan₂, hplan₂, hs₂⟩⟩⟩, hb⟩

/-- The rest of a request, with the draws from chain `m` on: when `inscribeChain` succeeds on a
request with more than `24 m` inscriptions whose funding output `m` has the same key as its
first, it succeeds on the request's funding outputs from `m` on and inscriptions from `24 m` on,
and returns the whole result's chains from `m` on: the same transactions, ids and records. -/
theorem inscribeChain_remainder_shifted (hmn : 24 * m < request.inscriptionDataList.length)
    (hkey : request.commitTxPrevOutputList[m]?.map PrevOutput.privateKey =
      request.commitTxPrevOutputList[0]?.map PrevOutput.privateKey)
    (h : (inscribeChain L network rand request).success = true) :
    (inscribeChain L network (rand.shift m) (request.remainder m)).success = true ∧
      (inscribeChain L network (rand.shift m) (request.remainder m)).txChains =
        (inscribeChain L network rand request).txChains.drop m ∧
      (inscribeChain L network (rand.shift m) (request.remainder m)).txChainTxIds =
        (inscribeChain L network rand request).txChainTxIds.drop m ∧
      (inscribeChain L network (rand.shift m) (request.remainder m)).lastTxDetails =
        (inscribeChain L network rand request).lastTxDetails.drop m := by
  obtain ⟨tool, packed, hn, hp, heq⟩ := inscribeChain_eq_of_success h
  obtain ⟨tool₂, hn₂, hb⟩ := newChainInscriptionTool_remainder hmn hkey hn
  rw [inscribeChain_eq_of_ok hn₂ (hb.packChains_eq_ok hp), heq]
  exact ⟨rfl, List.map_drop _ _ _, List.map_drop _ _ _,
    (filterMap_take_drop_of_length_eq (length_filterMap_of_packChains hn hp) m).2⟩

/-- **The rest of a request.** On a library whose size reads only a transaction's shape, when
`inscribeChain` succeeds on a request with more than `24 m` inscriptions whose funding output `m`
has the same key as its first, a run with any draws on the request's funding outputs from `m`
on and inscriptions from `24 m` on succeeds and returns the whole result's chains from `m` on:
the same ids, and the same chains and records up to the hex of their transactions. -/
theorem inscribeChain_remainder (hsize : ShapeSized L network)
    (hmn : 24 * m < request.inscriptionDataList.length)
    (hkey : request.commitTxPrevOutputList[m]?.map PrevOutput.privateKey =
      request.commitTxPrevOutputList[0]?.map PrevOutput.privateKey)
    (h : (inscribeChain L network rand request).success = true) (rand₂ : RandomDraws) :
    (inscribeChain L network rand₂ (request.remainder m)).success = true ∧
      (inscribeChain L network rand₂ (request.remainder m)).txChainTxIds =
        (inscribeChain L network rand request).txChainTxIds.drop m ∧
      (inscribeChain L network rand₂ (request.remainder m)).eraseHex.txChains =
        (inscribeChain L network rand request).eraseHex.txChains.drop m ∧
      (inscribeChain L network rand₂ (request.remainder m)).eraseHex.lastTxDetails =
        (inscribeChain L network rand request).eraseHex.lastTxDetails.drop m := by
  obtain ⟨hs, hc, hi, hl⟩ := inscribeChain_remainder_shifted hmn hkey h
  have hd := inscribeChain_draws hsize rand₂ (rand.shift m) (request.remainder m)
  refine ⟨(congrArg ChainInscribeResult.success hd).trans hs,
    (congrArg ChainInscribeResult.txChainTxIds hd).trans hi, ?_, ?_⟩ <;>
  · rw [hd]
    simp only [ChainInscribeResult.eraseHex, hc, hl, List.map_drop]

/-- Two chains on the reference library, all funding outputs under one key: a run with other
draws on the request from the second chain on returns the whole run's second chain. -/
theorem inscribeChain_remainder_at_two_chains :
    ShapeSized refLib .testnet ∧
      24 * 1 < (refRequest [refFunding 100000, refFunding 20000] 25).inscriptionDataList.length ∧
      (refRequest [refFunding 100000, refFunding 20000] 25).commitTxPrevOutputList[1]?.map
          PrevOutput.privateKey =
        (refRequest [refFunding 100000, refFunding 20000] 25).commitTxPrevOutputList[0]?.map
          PrevOutput.privateKey ∧
      (inscribeChain refLib .testnet refDraws
        (refRequest [refFunding 100000, refFunding 20000] 25)).success = true ∧
      (inscribeChain refLib .testnet refOnesDraws
        ((refRequest [refFunding 100000, refFunding 20000] 25).remainder 1)).success = true ∧
      (inscribeChain refLib .testnet refOnesDraws
        ((refRequest [refFunding 100000, refFunding 20000] 25).remainder 1)).txChainTxIds =
        (inscribeChain refLib .testnet refDraws
          (refRequest [refFunding 100000, refFunding 20000] 25)).txChainTxIds.drop 1 ∧
      (inscribeChain refLib .testnet refOnesDraws
        ((refRequest [refFunding 100000, refFunding 20000] 25).remainder 1)).eraseHex.txChains =
        (inscribeChain refLib .testnet refDraws
          (refRequest [refFunding 100000, refFunding 20000] 25)).eraseHex.txChains.drop 1 ∧
      (inscribeChain refLib .testnet refOnesDraws
        ((refRequest [refFunding 100000, refFunding 20000] 25).remainder 1)).eraseHex.lastTxDetails =
        (inscribeChain refLib .testnet refDraws
          (refRequest [refFunding 100000, refFunding 20000] 25)).eraseHex.lastTxDetails.drop 1 :=
  have hmn : 24 * 1 <
      (refRequest [refFunding 100000, refFunding 20000] 25).inscriptionDataList.length := by decide
  have hs : (inscribeChain refLib .testnet refDraws
      (refRequest [refFunding 100000, refFunding 20000] 25)).success = true := by decide
  ⟨refLib_shapeSized .testnet, hmn, rfl, hs,
    inscribeChain_remainder (refLib_shapeSized .testnet) hmn rfl hs refOnesDraws⟩


/-! ## A request split in two -/

end Request

end ChainInscription
