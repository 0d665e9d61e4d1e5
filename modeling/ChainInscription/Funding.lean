import ChainInscription.Remainder
import ChainInscription.Outcome

/-!
# How many funding outputs a request needs

The planner builds chain `k` on funding output `k` and reads no other, so a request needs one
funding output for each chain, `⌈n / 24⌉` of them for `n` inscriptions. The validation checks
every funding output for a key, and nothing reads the outputs after those the chains need.

Both facts compare two runs on the same tool, one of them on a shorter or a longer funding
list:

* cut a successful request to its first `k` funding outputs, too few for its inscriptions: the
  planner takes the same first `k` passes and then fails with the shortage message, which names
  `k` and the number of inscriptions (`inscribeChain_short_of_funding`);
* append funding outputs that have keys to a successful request: the result is the same
  (`inscribeChain_append_funding_same_draws`), and with other draws the same up to the hex of
  its transactions (`inscribeChain_append_funding`).
-/

namespace ChainInscription

variable {η : Type} {L : BitcoinLib η} {network : Network} {rand : RandomDraws}

section Planner
variable {p : ChainParams} {utxos : List PrevOutput} {fuel s u : ℕ}
  {tool : ChainInscriptionTool η} {r : ℕ × ChainInscriptionTool η}

/-- **Extra funding outputs are never read.** A run of the planner that does not fail takes the
same passes on a longer funding list. -/
theorem planLoop_append (extra : List PrevOutput)
    (h : planLoop L network rand utxos p fuel s u tool = .ok r) :
    planLoop L network rand (utxos ++ extra) p fuel s u tool = .ok r := by
  induction fuel generalizing s u tool with
  | zero => exact h
  | succ fuel ih =>
    by_cases hsn : s < tool.inscriptionTxCtxDataList.length
    swap
    · rw [planLoop_of_le (not_lt.1 hsn)] at h
      rw [planLoop_of_le (not_lt.1 hsn)]
      exact h
    have hcount : u < utxos.length := by
      by_contra hc
      simp [planLoop, hsn, not_lt.1 hc] at h
    obtain ⟨utxo, hutxo⟩ : ∃ utxo, utxos[u]? = some utxo := ⟨_, List.getElem?_eq_getElem hcount⟩
    rw [planLoop_succ_eq hsn hutxo rfl rfl rfl] at h
    rw [planLoop_succ_eq hsn (by rw [List.getElem?_append_left hcount, hutxo]) rfl rfl rfl]
    obtain ⟨⟨chain, tool₁⟩, hbuild, h⟩ := Except.bind_eq_ok.1 h
    rw [hbuild, Except.ok_bind]
    exact ih h

/-- The planner's entry on a longer funding list. -/
theorem buildEnhancedInscriptionChains_append {tool' : ChainInscriptionTool η}
    (extra : List PrevOutput) (hu : utxos ≠ [])
    (h : buildEnhancedInscriptionChains L network rand tool utxos p = .ok tool') :
    buildEnhancedInscriptionChains L network rand tool (utxos ++ extra) p = .ok tool' := by
  have hlen : (utxos ++ extra).length ≠ 0 := by simp [hu]
  unfold buildEnhancedInscriptionChains at h ⊢
  rw [if_neg (by simpa using hu)] at h
  rw [if_neg hlen]
  split at h
  · rw [if_pos ‹_›]
    exact h
  rw [if_neg ‹_›]
  obtain ⟨⟨s, tool₁⟩, hl, h⟩ := Except.bind_eq_ok.1 h
  rw [planLoop_append extra hl, Except.ok_bind]
  exact h

end Planner

/-- The signer on a longer funding list: chain `k` is signed with funding output `k`, which
the extra outputs do not move. -/
theorem signAllTransactions_append {tool tool' : ChainInscriptionTool η}
    {utxos : List PrevOutput} (extra : List PrevOutput) (hk : tool.txChains.length ≤ utxos.length)
    (h : signAllTransactions L network rand tool utxos = .ok tool') :
    signAllTransactions L network rand tool (utxos ++ extra) = .ok tool' := by
  obtain ⟨signed, hs, rfl⟩ := signAllTransactions_eq_ok h
  have hs₂ := @signChains_window η L network rand rand tool tool utxos (utxos ++ extra)
    tool.txChains 0 0 0 tool.txChains.length signed (fun _ _ => rfl)
    (fun j hj => by simp [List.getElem?_append_left (show j < utxos.length by omega)])
    (fun _ _ _ => rfl) hs
  rw [List.drop_zero, List.drop_zero, List.take_of_length_le le_rfl,
    List.take_of_length_le (by simp [(signChains_eq_ok hs).1])] at hs₂
  exact signAllTransactions_eq hs₂

/-! ## Requests with fewer or more funding outputs -/

section Request
variable {request : InscriptionRequest} {tool : ChainInscriptionTool η}

/-- The tool on a request with more funding outputs, all with keys, is the same tool. -/
theorem newChainInscriptionTool_append (extra : List PrevOutput)
    (hx : ∀ u ∈ extra, u.privateKey ≠ "")
    (h : newChainInscriptionTool L network rand request = .ok tool) :
    newChainInscriptionTool L network rand
      { request with commitTxPrevOutputList := request.commitTxPrevOutputList ++ extra } =
      .ok tool := by
  obtain ⟨ctxs, chains, feess, hr⟩ := newChainInscriptionTool_eq_ok h
  unfold newChainInscriptionTool at h ⊢
  split at h
  · cases h
  next primary rest hl =>
  split at h
  · cases h
  next hdata =>
  obtain ⟨⟨⟩, hkeys, h⟩ := Except.bind_eq_ok.1 h
  obtain ⟨ctxs', hctxs, h⟩ := Except.bind_eq_ok.1 h
  obtain ⟨plan, hplan, hs⟩ := Except.bind_eq_ok.1 h
  have hk : plan.txChains.length ≤ request.commitTxPrevOutputList.length := by
    obtain ⟨signed, hsc, rfl⟩ := signAllTransactions_eq_ok hs
    have hc := hr.txChains_length
    have hcount := hr.plan.chainCount_le
    have hpl := hr.plan.length_eq.1
    simp only [← (signChains_eq_ok hsc).1] at hc ⊢
    omega
  simp only [hl, List.cons_append]
  rw [if_neg hdata, checkPrivateKeys_of_forall (fun v hv => by
    rw [← List.cons_append, ← hl, List.mem_append] at hv
    exact hv.elim (checkPrivateKeys_eq_ok hkeys v) (hx v)) 0, Except.ok_bind, hctxs,
    Except.ok_bind, ← List.cons_append, ← hl]
  exact Except.bind_eq_ok.2 ⟨plan, buildEnhancedInscriptionChains_append extra (by simp [hl]) hplan,
    signAllTransactions_append extra hk hs⟩

/-- Funding outputs beyond those the chains need change nothing, with the same draws: when
`inscribeChain` succeeds on a request, it returns the same result on the request with more
funding outputs after its own, all with keys: the validation checks their keys, and nothing
else reads them. -/
theorem inscribeChain_append_funding_same_draws (extra : List PrevOutput)
    (hx : ∀ u ∈ extra, u.privateKey ≠ "")
    (h : (inscribeChain L network rand request).success = true) :
    inscribeChain L network rand
        { request with commitTxPrevOutputList := request.commitTxPrevOutputList ++ extra } =
      inscribeChain L network rand request := by
  obtain ⟨tool, packed, hn, hp, heq⟩ := inscribeChain_eq_of_success h
  have hp₂ := @packChains_window η L tool tool request
    { request with commitTxPrevOutputList := request.commitTxPrevOutputList ++ extra }
    tool.txChains 0 0 0 tool.txChains.length packed
    (fun _ _ chain => packChain_congr (fun _ _ _ _ _ => rfl) chain) hp
  rw [List.drop_zero, List.drop_zero, List.take_of_length_le le_rfl,
    List.take_of_length_le (by simp [length_of_packChains_eq_ok hp])] at hp₂
  rw [inscribeChain_eq_of_ok (newChainInscriptionTool_append extra hx hn) hp₂, heq]

/-- **Funding outputs beyond those the chains need change nothing.** On a library whose size
reads only a transaction's shape, when `inscribeChain` succeeds on a request, a run with any
draws on the request with more funding outputs after its own, all with keys, returns the same
result up to the hex of its transactions: the same success, chains, ids, records and total. -/
theorem inscribeChain_append_funding (hsize : ShapeSized L network) (extra : List PrevOutput)
    (hx : ∀ u ∈ extra, u.privateKey ≠ "")
    (h : (inscribeChain L network rand request).success = true) (rand₂ : RandomDraws) :
    (inscribeChain L network rand₂
        { request with commitTxPrevOutputList := request.commitTxPrevOutputList ++ extra }).eraseHex =
      (inscribeChain L network rand request).eraseHex :=
  (inscribeChain_draws hsize rand₂ rand _).trans
    (congrArg ChainInscribeResult.eraseHex (inscribeChain_append_funding_same_draws extra hx h))

/-- One chain on the reference library: a second funding output after the first, in a run with
other draws, changes nothing but the hex. -/
theorem inscribeChain_append_funding_at_one :
    ShapeSized refLib .testnet ∧ (∀ u ∈ [refFunding 20000], u.privateKey ≠ "") ∧
      (inscribeChain refLib .testnet refDraws (refRequest [refFunding 100000] 10)).success = true ∧
      (inscribeChain refLib .testnet refOnesDraws
          { refRequest [refFunding 100000] 10 with
            commitTxPrevOutputList :=
              (refRequest [refFunding 100000] 10).commitTxPrevOutputList ++
                [refFunding 20000] }).eraseHex =
        (inscribeChain refLib .testnet refDraws (refRequest [refFunding 100000] 10)).eraseHex :=
  have hx : ∀ u ∈ [refFunding 20000], u.privateKey ≠ "" := by decide
  have hs : (inscribeChain refLib .testnet refDraws
      (refRequest [refFunding 100000] 10)).success = true := by decide
  ⟨refLib_shapeSized .testnet, hx, hs,
    inscribeChain_append_funding (refLib_shapeSized .testnet) [refFunding 20000] hx hs refOnesDraws⟩

end Request

end ChainInscription
