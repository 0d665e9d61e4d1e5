import ChainInscription.Planner
import ChainInscription.ChainShape
import ChainInscription.Envelope
import Mathlib.Data.List.Nodup

/-!
# The layout of a plan

What `buildEnhancedInscriptionChains` leaves in the tool, read from `PlanBuilt`: `⌈n / 24⌉`
chains for `n` inscriptions, chain `k` built on funding output `k` from the inscriptions
`24 k, ..., 24 k + 23`, and the bookkeeping the signer and the packager look transactions up in.
The fee ledger and the context mapping hold one entry per transaction under the key
`(chainIndex, txIndex)`, in chain order and with no key twice; the mapping gives reveal `t` of
chain `c` the inscription `24 c + t - 1`, and the total is the sum of the ledger.
-/

namespace ChainInscription

variable {η : Type} {L : BitcoinLib η} {network : Network} {rand : RandomDraws}

/-! ## Segments -/

theorem segment_eq {α : Type} (xs : List α) (k : ℕ) :
    segment xs k = (xs.drop (24 * k)).take 24 := by
  simp only [segment, slice, Nat.add_sub_cancel_left]
  exact List.take_eq_take.2 (by simp only [List.length_drop]; omega)

theorem getElem?_segment {α : Type} (xs : List α) (k : ℕ) {t : ℕ} (ht : t < 24) :
    (segment xs k)[t]? = xs[24 * k + t]? := by
  simp [segment_eq, List.getElem?_take, ht]

/-- Segment `k` and the inscriptions after it are the inscriptions from `24 k` on. -/
theorem segment_append_drop {α : Type} (xs : List α) (k : ℕ) :
    segment xs k ++ xs.drop (24 * (k + 1)) = xs.drop (24 * k) := by
  rw [segment_eq, show 24 * (k + 1) = 24 * k + 24 by ring, ← List.drop_drop,
    List.take_append_drop]

/-! ## The chains of a plan -/

namespace PlanBuilt
variable {utxos : List PrevOutput} {xs : List InscriptionTxCtxData} {p : ChainParams} {k : ℕ}
  {chains : List (List (Transaction η))} {feess : List (List ℤ)}

/-- From segment `k` on, the planner builds the chains up to number `⌈n / 24⌉`. -/
theorem length_eq (h : PlanBuilt L network utxos xs p rand k chains feess) :
    chains.length = chainCount xs.length - k ∧ feess.length = chains.length := by
  induction h with
  | done h => simp only [chainCount, List.length_nil, and_true]; omega
  | chain hk _ _ _ ih => simp only [chainCount, List.length_cons] at ih ⊢; omega

/-- Chain `j` of a plan from segment `k` on is built on funding output `k + j` from segment
`k + j`, which is not empty. -/
theorem getElem (h : PlanBuilt L network utxos xs p rand k chains feess) {j : ℕ}
    {chain : List (Transaction η)} (hj : chains[j]? = some chain) :
    ∃ utxo fees, utxos[k + j]? = some utxo ∧ feess[j]? = some fees ∧ 24 * (k + j) < xs.length ∧
      ChainBuilt L network utxo p (rand.sizing (k + j)) (segment xs (k + j)) chain fees := by
  induction h generalizing j with
  | done => simp at hj
  | @chain k _ _ _ _ _ hk hu hc _ ih =>
    cases j with
    | zero =>
      simp only [List.getElem?_cons_zero, Option.some.injEq] at hj
      subst hj
      exact ⟨_, _, hu, by simp, hk, hc⟩
    | succ j =>
      obtain ⟨utxo, fees, hu', hf, hlt, hc'⟩ := ih (by simpa using hj)
      rw [show k + 1 + j = k + (j + 1) by omega] at hu' hlt hc'
      exact ⟨utxo, fees, hu', by simpa using hf, hlt, hc'⟩

theorem map_length (h : PlanBuilt L network utxos xs p rand k chains feess) :
    feess.map List.length = chains.map List.length := by
  induction h with
  | done => rfl
  | chain _ _ hc _ ih => simp only [List.map_cons, ih, hc.length_eq.1, hc.length_eq.2]

/-- Read chain by chain, the reveals of a plan from segment `k` on pay their first outputs to
the recipients of the inscriptions from `24 k` on, each once and in order. -/
theorem flatten_outs_head (h : PlanBuilt L network utxos xs p rand k chains feess) :
    (chains.map fun chain => chain.tail.map (·.outs.head?)).flatten =
      (xs.drop (24 * k)).map fun x => some ⟨x.revealPkScript, p.revealOutValue⟩ := by
  induction h with
  | done h => simp [List.drop_eq_nil_of_le h]
  | chain _ _ hc _ ih =>
    rw [List.map_cons, List.flatten_cons, hc.tail_map_outs_head, ih, ← List.map_append,
      segment_append_drop]

end PlanBuilt

theorem planned_nil (tool : ChainInscriptionTool η) (k : ℕ) : planned tool k [] [] = tool := by
  cases tool; simp [planned, planFees, planMappings, ChainInscriptionTool.recordAll]

/-- A successful `buildEnhancedInscriptionChains` on a tool without chains, with funding
outputs, has built a plan from segment `0` and recorded it. -/
theorem buildEnhancedInscriptionChains_eq_ok {tool tool' : ChainInscriptionTool η}
    {utxos : List PrevOutput} {p : ChainParams} (hk : tool.txChains = []) (hu : utxos ≠ [])
    (h : buildEnhancedInscriptionChains L network rand tool utxos p = .ok tool') :
    ∃ chains feess, PlanBuilt L network utxos tool.inscriptionTxCtxDataList p rand 0 chains feess ∧
      tool' = planned tool 0 chains feess := by
  unfold buildEnhancedInscriptionChains at h
  rw [if_neg (by simpa using hu)] at h
  by_cases hn : tool.inscriptionTxCtxDataList.length = 0
  · simp only [hn, if_true, Except.pure_eq_ok] at h
    exact ⟨[], [], .done (by omega), by rw [planned_nil, h]⟩
  rw [if_neg hn] at h
  obtain ⟨⟨s, tool''⟩, hl, h⟩ := Except.bind_eq_ok.1 h
  simp only [Except.pure_eq_ok] at h
  subst h
  have hl' : planLoop L network rand utxos p tool.inscriptionTxCtxDataList.length
      (min (24 * 0) tool.inscriptionTxCtxDataList.length) 0 tool = .ok (s, tool'') := by
    simpa using hl
  obtain ⟨-, chains, feess, hpb, rfl⟩ := planLoop_eq_ok rfl (by simp [hk]) (by omega) hl'
  exact ⟨chains, feess, hpb, rfl⟩

/-! ## The fee ledger and the context mapping -/

/-- The keys `(chainIndex, txIndex)` of the transactions of chains `k, k + 1, ...` that have
`ns` transactions, in order. -/
def txKeys : ℕ → List ℕ → List (ℕ × ℕ)
  | _, [] => []
  | k, n :: ns => (List.range n).map (fun t => (k, t)) ++ txKeys (k + 1) ns

theorem mem_txKeys {k c t : ℕ} {ns : List ℕ} :
    (c, t) ∈ txKeys k ns ↔ k ≤ c ∧ ∃ n, ns[c - k]? = some n ∧ t < n := by
  induction ns generalizing k with
  | nil => simp [txKeys]
  | cons n ns ih =>
    simp only [txKeys, List.mem_append, List.mem_map, List.mem_range, Prod.mk.injEq, ih]
    constructor
    · rintro (⟨t', ht, rfl, rfl⟩ | ⟨hk, m, hm, ht⟩)
      · exact ⟨le_rfl, n, by simp, ht⟩
      · exact ⟨by omega, m, by rw [show c - k = c - (k + 1) + 1 by omega]; simpa using hm, ht⟩
    · rintro ⟨hk, m, hm, ht⟩
      rcases Nat.lt_or_ge k c with hlt | hge
      · rw [show c - k = c - (k + 1) + 1 by omega] at hm
        exact .inr ⟨hlt, m, by simpa using hm, ht⟩
      · obtain rfl : c = k := by omega
        simp only [Nat.sub_self, List.getElem?_cons_zero, Option.some.injEq] at hm
        exact .inl ⟨t, hm ▸ ht, rfl, rfl⟩

theorem nodup_txKeys (k : ℕ) (ns : List ℕ) : (txKeys k ns).Nodup := by
  induction ns generalizing k with
  | nil => simp [txKeys]
  | cons n ns ih =>
    refine List.nodup_append.2 ⟨(List.nodup_range n).map fun _ _ h => (Prod.mk.inj h).2, ih _, ?_⟩
    rintro ⟨c, t⟩ h₁ h₂
    obtain ⟨_, _, h⟩ := List.mem_map.1 h₁
    cases h
    exact absurd (mem_txKeys.1 h₂).1 (by omega)

/-- The context index recorded for transaction `t` of chain `c`: none for the commit, the index
`24 c + t - 1` of its inscription for a reveal. -/
def ctxIndexOf (c t : ℕ) : Option ℕ := if t = 0 then none else some (24 * c + t - 1)

theorem map_key_feeEntries (c t : ℕ) (fs : List ℤ) :
    (feeEntries c t fs).map (fun e => (e.chainIndex, e.txIndex)) =
      (List.range fs.length).map fun j => (c, t + j) := by
  induction fs generalizing t with
  | nil => rfl
  | cons f fs ih =>
    simp only [feeEntries, List.map_cons, ih, List.length_cons, List.range_succ_eq_map,
      List.map_map, Nat.add_zero]
    congr 2; funext j; simp [Nat.succ_eq_add_one]; omega

theorem map_fee_feeEntries (c t : ℕ) (fs : List ℤ) : (feeEntries c t fs).map (·.fee) = fs := by
  induction fs generalizing t with
  | nil => rfl
  | cons f fs ih => simp [feeEntries, ih]

theorem map_key_planFees (k : ℕ) (feess : List (List ℤ)) :
    (planFees k feess).map (fun e => (e.chainIndex, e.txIndex)) =
      txKeys k (feess.map List.length) := by
  induction feess generalizing k with
  | nil => rfl
  | cons fees feess ih => simp [planFees, txKeys, map_key_feeEntries, ih]

theorem revealMappings_eq (c t i n : ℕ) :
    revealMappings c t i n = (List.range n).map fun j => ⟨c, t + j, some (i + j)⟩ := by
  induction n generalizing t i with
  | zero => rfl
  | succ n ih =>
    simp only [revealMappings, ih, List.range_succ_eq_map, List.map_cons, List.map_map,
      Nat.add_zero]
    congr 2; funext j; simp [Nat.succ_eq_add_one]; constructor <;> omega

theorem PlanBuilt.planMappings_eq {utxos : List PrevOutput} {xs : List InscriptionTxCtxData}
    {p : ChainParams} {k : ℕ} {chains : List (List (Transaction η))} {feess : List (List ℤ)}
    (h : PlanBuilt L network utxos xs p rand k chains feess) :
    planMappings xs k feess =
      (txKeys k (feess.map List.length)).map fun ct => ⟨ct.1, ct.2, ctxIndexOf ct.1 ct.2⟩ := by
  induction h with
  | done => rfl
  | chain _ _ hc _ ih =>
    rw [planMappings, ih, List.map_cons, txKeys, List.map_append, hc.length_eq.2,
      List.range_succ_eq_map, revealMappings_eq]
    simp [ctxIndexOf, Function.comp_def, Nat.add_comm 1]

/-! ## Looking a transaction up -/

/-- The fee the ledger records for transaction `t` of chain `c`: the first entry under that
key, as the packager looks it up. -/
def ledgerFee (tool : ChainInscriptionTool η) (c t : ℕ) : Option ℤ :=
  (tool.txFees.find? fun e => e.chainIndex = c ∧ e.txIndex = t).map (·.fee)

/-- The inscription context the mapping gives transaction `t` of chain `c`, as the signer and
the packager look it up. -/
def contextOf (tool : ChainInscriptionTool η) (c t : ℕ) : Option InscriptionTxCtxData :=
  ((tool.chainContextMapping.find? fun m => m.chainIndex = c ∧ m.txIndex = t).bind
    (·.contextIndex)).bind (tool.inscriptionTxCtxDataList[·]?)

theorem find?_feeEntries (c t j : ℕ) (fs : List ℤ) :
    ((feeEntries c t fs).find? fun e => e.chainIndex = c ∧ e.txIndex = t + j).map (·.fee) =
      fs[j]? := by
  induction fs generalizing t j with
  | nil => rfl
  | cons f fs ih =>
    cases j with
    | zero => simp [feeEntries]
    | succ j =>
      have := ih (t + 1) j
      rw [show t + 1 + j = t + (j + 1) by omega] at this
      simpa [feeEntries] using this

theorem find?_planFees_of_lt {k c t : ℕ} {feess : List (List ℤ)} (hc : c < k) :
    (planFees k feess).find? (fun e => e.chainIndex = c ∧ e.txIndex = t) = none := by
  refine List.find?_eq_none.2 fun e he => ?_
  have hkey : (e.chainIndex, e.txIndex) ∈ txKeys k (feess.map List.length) :=
    map_key_planFees k feess ▸ List.mem_map_of_mem _ he
  have := (mem_txKeys.1 hkey).1
  simp only [decide_eq_true_eq, not_and]
  omega

theorem find?_planFees (k j t : ℕ) (feess : List (List ℤ)) :
    ((planFees k feess).find? fun e => e.chainIndex = k + j ∧ e.txIndex = t).map (·.fee) =
      feess[j]?.bind (·[t]?) := by
  induction feess generalizing k j with
  | nil => rfl
  | cons fees feess ih =>
    cases j with
    | zero =>
      have hA := find?_feeEntries k 0 t fees
      rw [Nat.zero_add] at hA
      rw [planFees, List.find?_append, find?_planFees_of_lt (by omega), Nat.add_zero]
      cases hf : (feeEntries k 0 fees).find? fun e => e.chainIndex = k ∧ e.txIndex = t with
      | none => rw [hf] at hA; simpa using hA.symm
      | some e => rw [hf] at hA; simpa using hA
    | succ j =>
      have hA : (feeEntries k 0 fees).find?
          (fun e => e.chainIndex = k + (j + 1) ∧ e.txIndex = t) = none := by
        refine List.find?_eq_none.2 fun e he => ?_
        have hkey := map_key_feeEntries k 0 fees ▸ List.mem_map_of_mem
          (fun e : TxFee => (e.chainIndex, e.txIndex)) he
        obtain ⟨_, _, h⟩ := List.mem_map.1 hkey
        simp only [Prod.mk.injEq] at h
        simp only [decide_eq_true_eq, not_and]
        omega
      rw [planFees, List.find?_append, hA, Option.none_or, show k + (j + 1) = k + 1 + j by omega,
        ih]
      simp

theorem find?_pair_of_mem {c t : ℕ} {l : List (ℕ × ℕ)} (h : (c, t) ∈ l) :
    (l.find? fun ct => ct.1 = c ∧ ct.2 = t) = some (c, t) := by
  induction l with
  | nil => simp at h
  | cons a l ih =>
    by_cases ha : a = (c, t)
    · subst ha; simp
    · have hne : ¬ (a.1 = c ∧ a.2 = t) := fun ⟨h₁, h₂⟩ => ha (Prod.ext h₁ h₂)
      simp only [List.find?_cons, hne, decide_False]
      exact ih ((List.mem_cons.1 h).resolve_left (Ne.symm ha))

/-- The tool a fresh build records a plan in: no chains, no ledger entries, no mappings. -/
structure ChainInscriptionTool.Fresh (tool : ChainInscriptionTool η) : Prop where
  txChains_eq : tool.txChains = []
  txFees_eq : tool.txFees = []
  chainContextMapping_eq : tool.chainContextMapping = []
  totalEstimatedFee_eq : tool.totalEstimatedFee = 0

section Planned
variable {utxos : List PrevOutput} {p : ChainParams} {chains : List (List (Transaction η))}
  {feess : List (List ℤ)} {tool : ChainInscriptionTool η}

theorem ledgerFee_planned (hf : tool.Fresh) (c t : ℕ) :
    ledgerFee (planned tool 0 chains feess) c t = feess[c]?.bind (·[t]?) := by
  simpa [ledgerFee, planned, hf.txFees_eq] using find?_planFees 0 c t feess

theorem contextOf_planned (hf : tool.Fresh)
    (h : PlanBuilt L network utxos tool.inscriptionTxCtxDataList p rand 0 chains feess) {c t : ℕ}
    {chain : List (Transaction η)} (hc : chains[c]? = some chain) (ht : t < chain.length) :
    contextOf (planned tool 0 chains feess) c t =
      (ctxIndexOf c t).bind (tool.inscriptionTxCtxDataList[·]?) := by
  have hmem : (c, t) ∈ txKeys 0 (feess.map List.length) :=
    mem_txKeys.2 ⟨Nat.zero_le _, chain.length, by simp [h.map_length, hc], ht⟩
  simp only [contextOf, planned, ChainInscriptionTool.recordAll, hf.chainContextMapping_eq,
    List.nil_append, h.planMappings_eq, List.find?_map]
  simp only [Function.comp_def, find?_pair_of_mem hmem]
  rfl

theorem length_segment_pos {α : Type} {xs : List α} {k : ℕ} (h : 24 * k < xs.length) :
    segment xs k ≠ [] := by
  rw [← List.length_pos, length_segment]; omega

/-- The commit of chain `c` of a plan recorded in a fresh tool: built on funding output `c` for
inscription `24 c`, with its fee in the ledger and no context in the mapping. -/
theorem PlanBuilt.commit_getElem (hf : tool.Fresh)
    (h : PlanBuilt L network utxos tool.inscriptionTxCtxDataList p rand 0 chains feess) {c : ℕ}
    {chain : List (Transaction η)} (hc : chains[c]? = some chain) {commit : Transaction η}
    (h0 : chain[0]? = some commit) :
    ∃ utxo x fee, utxos[c]? = some utxo ∧ tool.inscriptionTxCtxDataList[24 * c]? = some x ∧
      ledgerFee (planned tool 0 chains feess) c 0 = some fee ∧
      contextOf (planned tool 0 chains feess) c 0 = none ∧
      ChargedFee L network p.commitFeeRate true none [utxo] (rand.sizing c) (initialCommitTx L utxo x) fee ∧
      0 ≤ (utxo.amount : ℤ) - fee ∧
      commit = (initialCommitTx L utxo x).setOutputValue 0 (utxo.amount - fee) := by
  obtain ⟨utxo, fees, hu, hfs, -, hcb⟩ := h.getElem hc
  rw [Nat.zero_add] at hu hcb
  obtain ⟨x, fee, hx, hfee, hcharged, hpaid, rfl⟩ := hcb.commit_getElem h0
  refine ⟨utxo, x, fee, hu, by simpa [getElem?_segment] using hx, ?_, ?_, hcharged, hpaid, rfl⟩
  · simp [ledgerFee_planned hf, hfs, hfee]
  · rw [contextOf_planned hf h hc (List.getElem?_eq_some_iff.1 h0).1]
    rfl

/-- Reveal `t + 1` of chain `c` of a plan recorded in a fresh tool: one `RevealStep` from
transaction `t`, for inscription `24 c + t`, which the mapping gives it, charged the fee in the
ledger. -/
theorem PlanBuilt.reveal_getElem (hf : tool.Fresh)
    (h : PlanBuilt L network utxos tool.inscriptionTxCtxDataList p rand 0 chains feess) {c t : ℕ}
    {chain : List (Transaction η)} (hc : chains[c]? = some chain) {tx : Transaction η}
    (ht : chain[t + 1]? = some tx) :
    ∃ utxo first pred s w x f, utxos[c]? = some utxo ∧ chain[t]? = some pred ∧
      (segment tool.inscriptionTxCtxDataList c)[t]? = some x ∧
      tool.inscriptionTxCtxDataList[24 * c + t]? = some x ∧
      contextOf (planned tool 0 chains feess) c (t + 1) = some x ∧
      ledgerFee (planned tool 0 chains feess) c (t + 1) = some f ∧
      pred.outs[if t = 0 then 0 else 1]? = some ⟨s, w⟩ ∧
      (t = 0 → s = x.commitTxAddressPkScript) ∧
      (0 < t → L.toOutputScript x.commitTxAddress network = .ok s) ∧
      RevealStep L network utxo first p pred (if t = 0 then 0 else 1) w x
        ((segment tool.inscriptionTxCtxDataList c).drop (t + 1)) f tx := by
  obtain ⟨utxo, fees, hu, hfs, hlt, hcb⟩ := h.getElem hc
  rw [Nat.zero_add] at hu hcb hlt
  obtain ⟨first, rest, hseg⟩ := List.exists_cons_of_ne_nil (length_segment_pos hlt)
  rw [hseg] at hcb
  obtain ⟨pred, s, w, x, f, hp, hx, hf', hout, h0, h1, hs⟩ := hcb.step_getElem ht
  have ht24 : t < 24 := by
    have := (List.getElem?_eq_some_iff.1 hx).1
    have := length_segment tool.inscriptionTxCtxDataList c
    rw [hseg] at this
    omega
  have hx' : tool.inscriptionTxCtxDataList[24 * c + t]? = some x := by
    rw [← getElem?_segment _ _ ht24, hseg, hx]
  refine ⟨utxo, first, pred, s, w, x, f, hu, hp, by rw [hseg]; exact hx, hx', ?_, ?_, hout, h0,
    h1, by rwa [hseg]⟩
  · rw [contextOf_planned hf h hc (List.getElem?_eq_some_iff.1 ht).1]
    simpa [ctxIndexOf] using hx'
  · simp [ledgerFee_planned hf, hfs, hf']

/-- The estimator priced reveal `t + 1` of chain `c` of a plan recorded in a fresh tool at the
size of its clone, as a spend from the commit address of inscription `24 c`, the chain's first. -/
theorem PlanBuilt.reveal_sized (hf : tool.Fresh)
    (h : PlanBuilt L network utxos tool.inscriptionTxCtxDataList p rand 0 chains feess) {c t : ℕ}
    {chain : List (Transaction η)} (hc : chains[c]? = some chain) {tx : Transaction η}
    (ht : chain[t + 1]? = some tx) :
    ∃ first x f vsize, tool.inscriptionTxCtxDataList[24 * c]? = some first ∧
      tool.inscriptionTxCtxDataList[24 * c + t]? = some x ∧
      ledgerFee (planned tool 0 chains feess) c (t + 1) = some f ∧
      L.countAdjustedVsize ((tx.setOutputValue 1 0).setWitness 0 (emptySignature :: x.witness))
        [first.commitTxAddress] network = .ok vsize ∧ f = feeFor vsize p.revealFeeRate := by
  obtain ⟨utxo, fees, hu, hfs, hlt, hcb⟩ := h.getElem hc
  rw [Nat.zero_add] at hu hcb hlt
  obtain ⟨first, rest, hseg⟩ := List.exists_cons_of_ne_nil (length_segment_pos hlt)
  rw [hseg] at hcb
  obtain ⟨_, _, _, x, f, -, hx, hf', -, -, -, hs⟩ := hcb.step_getElem ht
  have ht24 : t < 24 := by
    have := (List.getElem?_eq_some_iff.1 hx).1
    have := length_segment tool.inscriptionTxCtxDataList c
    rw [hseg] at this
    omega
  obtain ⟨vsize, hv, rfl⟩ := hs.sized
  refine ⟨first, x, _, vsize, ?_, ?_, by simp [ledgerFee_planned hf, hfs, hf'], hv, rfl⟩
  · rw [← Nat.add_zero (24 * c), ← getElem?_segment _ _ (by omega), hseg, List.getElem?_cons_zero]
  · rw [← getElem?_segment _ _ ht24, hseg, hx]

/-- The mapping of a plan recorded in a fresh tool gives reveal `i + 1` of chain `j` the
inscription `i` of segment `j`. -/
theorem contextOf_planned_segment (hf : tool.Fresh)
    (h : PlanBuilt L network utxos tool.inscriptionTxCtxDataList p rand 0 chains feess) {j i : ℕ}
    {x : InscriptionTxCtxData} (hj : j < chains.length)
    (hx : (segment tool.inscriptionTxCtxDataList j)[i]? = some x) :
    contextOf (planned tool 0 chains feess) j (i + 1) = some x := by
  obtain ⟨chain, hc⟩ : ∃ chain, chains[j]? = some chain := ⟨_, List.getElem?_eq_getElem hj⟩
  obtain ⟨_, _, _, _, _, hcb⟩ := h.getElem hc
  rw [Nat.zero_add] at hcb
  have hi := (List.getElem?_eq_some_iff.1 hx).1
  have hi24 : i < 24 := by have := length_segment tool.inscriptionTxCtxDataList j; omega
  rw [contextOf_planned hf h hc (by rw [hcb.length_eq.1]; omega)]
  simpa [ctxIndexOf, ← getElem?_segment _ _ hi24] using hx

end Planned

/-! ## The bookkeeping of a build -/

/-- The bookkeeping of a tool against its chains: one ledger entry per transaction, under the
key `(chainIndex, txIndex)` of the transactions in chain order, no key twice and every key a
transaction's; a mapping with the same keys in the same order, giving each transaction its
`ctxIndexOf`; and a total that is the sum of the ledger. -/
structure LedgerIndexed (tool : ChainInscriptionTool η) : Prop where
  fee_keys : tool.txFees.map (fun e => (e.chainIndex, e.txIndex)) =
    txKeys 0 (tool.txChains.map List.length)
  keys_nodup : (tool.txFees.map fun e => (e.chainIndex, e.txIndex)).Nodup
  mem_keys : ∀ c t, (c, t) ∈ tool.txFees.map (fun e => (e.chainIndex, e.txIndex)) ↔
    ∃ chain, tool.txChains[c]? = some chain ∧ t < chain.length
  mapping_eq : tool.chainContextMapping =
    (txKeys 0 (tool.txChains.map List.length)).map fun ct => ⟨ct.1, ct.2, ctxIndexOf ct.1 ct.2⟩
  total_eq : tool.totalEstimatedFee = (tool.txFees.map (·.fee)).sum

theorem ledgerIndexed_planned {tool : ChainInscriptionTool η} (hf : tool.Fresh)
    {chains : List (List (Transaction η))} {feess : List (List ℤ)}
    (hl : feess.map List.length = chains.map List.length)
    (hm : planMappings tool.inscriptionTxCtxDataList 0 feess =
      (txKeys 0 (feess.map List.length)).map fun ct => ⟨ct.1, ct.2, ctxIndexOf ct.1 ct.2⟩) :
    LedgerIndexed (planned tool 0 chains feess) := by
  have hkeys : (planned tool 0 chains feess).txFees.map (fun e => (e.chainIndex, e.txIndex)) =
      txKeys 0 (chains.map List.length) := by
    simp [planned, hf.txFees_eq, map_key_planFees, hl]
  have hchains : (planned tool 0 chains feess).txChains = chains := by
    simp [planned, hf.txChains_eq]
  refine ⟨by rw [hkeys, hchains], by rw [hkeys]; exact nodup_txKeys _ _, fun c t => ?_, ?_, ?_⟩
  · rw [hkeys, hchains, mem_txKeys]
    simp [List.getElem?_map]
  · simp [planned, hf.chainContextMapping_eq, hf.txChains_eq, hm, hl]
  · simp [planned, hf.totalEstimatedFee_eq, hf.txFees_eq]

/-- **The bookkeeping of a build.** After a build on a fresh tool that completes without error,
the fee ledger and the context mapping hold one entry for each transaction of the chains built,
under the key `(chainIndex, txIndex)`, each key once; the mapping gives the commits no context
and reveal `t` of chain `c` the inscription `24 c + t - 1`; the total is the sum of the ledger. -/
theorem buildEnhancedInscriptionChains_ledger {tool tool' : ChainInscriptionTool η}
    {utxos : List PrevOutput} {p : ChainParams} (hf : tool.Fresh)
    (h : buildEnhancedInscriptionChains L network rand tool utxos p = .ok tool') :
    LedgerIndexed tool' := by
  by_cases hu : utxos = []
  · simp only [buildEnhancedInscriptionChains, hu, List.length_nil, if_true,
      Except.pure_eq_ok] at h
    subst h
    rw [← planned_nil tool 0]
    exact ledgerIndexed_planned hf rfl rfl
  obtain ⟨chains, feess, hpb, rfl⟩ := buildEnhancedInscriptionChains_eq_ok hf.txChains_eq hu h
  exact ledgerIndexed_planned hf hpb.map_length hpb.planMappings_eq

/-- A short text inscription's context, as `createInscriptionTxCtxData` makes it on the
reference library from the key `w`. -/
def refSampleContext : InscriptionTxCtxData :=
  match createInscriptionTxCtxData refLib .testnet ⟨"text/plain", .text "hi", "prcpt"⟩ "w" with
  | .ok x => x
  | .error _ => ⟨[], [], "", [], [], [], []⟩

/-- A fresh tool on the reference library with that context, and the settings a sample chain is
built with. -/
def refSampleTool : ChainInscriptionTool RefHash :=
  { ChainInscriptionTool.init with
    network := .testnet
    inscriptionTxCtxDataList := [refSampleContext] }

def refSampleParams : ChainParams :=
  ⟨546, FeeRate.ofNat 2 (by decide), "p7", 546, FeeRate.ofNat 2 (by decide)⟩

/-- A build of one inscription on one funding output of 20000 satoshis. -/
theorem buildEnhancedInscriptionChains_ledger_at_one :
    ∃ tool', buildEnhancedInscriptionChains refLib .testnet refDraws refSampleTool
      [⟨"aa", 0, 20000, "p5", "w"⟩] refSampleParams = .ok tool' ∧ LedgerIndexed tool' :=
  ⟨_, rfl, buildEnhancedInscriptionChains_ledger ⟨rfl, rfl, rfl, rfl⟩
    (rfl : buildEnhancedInscriptionChains refLib .testnet refDraws refSampleTool
      [⟨"aa", 0, 20000, "p5", "w"⟩] refSampleParams = _)⟩

end ChainInscription
