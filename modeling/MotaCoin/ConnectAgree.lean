import MotaCoin.MinerRules

/-!
# Connecting a transaction in two places

`ConnectInputs` runs once when the miner takes a transaction and once more when the block is
connected, with other indexes, queues and flags. What it does depends on the transactions that the
inputs lead to, on where these are, and on what is unspent: a transaction that connects in one place
connects in every other where its inputs are found alike.

## Main definitions

* `InputsAgree`: two fetched maps with the same transactions at the same positions
* `FoundAlike`: an input that leads to the same transaction from two places

## Main results

* `spendInputs_of_spendable`: what the second loop of `ConnectInputs` needs
* `connects_of_foundAlike`: a transaction connects where its inputs are found alike
-/

namespace MotaCoin

open SpendIndex (Spendable)

variable {C : Crypto}

/-! ## Fetched inputs -/

/-- The transactions of a fetched map. -/
def prevTxs (inputs : MapPrevTx) (hash : Uint256) : Option CTransaction :=
  (inputs hash).map Prod.snd

variable (C) in
/-- The inputs from the `i`th on are signed for the transactions they spend. -/
def Signed (tx : CTransaction) (prevTx : Uint256 → Option CTransaction) : Nat → List CTxIn → Prop
  | _, [] => True
  | i, txin :: vin =>
    (∃ txPrev, prevTx txin.prevout.hash = some txPrev ∧ C.verifySignature txPrev tx i = true) ∧
      Signed tx prevTx (i + 1) vin

/-- **Two fetched maps agree** on inputs: they have the same transactions at the same positions, with
as many outputs; what is spent may differ. -/
def InputsAgree (inputs inputs' : MapPrevTx) (vin : List CTxIn) : Prop :=
  ∀ txin ∈ vin, ∃ r r' txPrev, inputs txin.prevout.hash = some (r, txPrev) ∧
    inputs' txin.prevout.hash = some (r', txPrev) ∧ r'.pos = r.pos ∧
    r'.vSpent.length = r.vSpent.length

section Agree

variable {src : Sources} {ctx ctx' : CTransaction.ConnectCtx} {tx : CTransaction}
  {inputs inputs' : MapPrevTx} {vin : List CTxIn} {pos pos' : CDiskTxPos}

/-- Marking an output spent leaves the transactions of the map alone. -/
theorem prevTxs_update {hash : Uint256} {r r' : CTxIndex} {txPrev : CTransaction}
    (h : inputs hash = some (r, txPrev)) :
    prevTxs (Function.update inputs hash (some (r', txPrev))) = prevTxs inputs := by
  funext hash'
  by_cases hh : hash' = hash
  · rw [hh, prevTxs, prevTxs, Function.update_self, h]
    rfl
  · rw [prevTxs, prevTxs, Function.update_of_ne hh]

theorem InputsAgree.prevTxs_eq (h : InputsAgree inputs inputs' vin) {txin : CTxIn}
    (htxin : txin ∈ vin) : prevTxs inputs' txin.prevout.hash = prevTxs inputs txin.prevout.hash := by
  obtain ⟨r, r', txPrev, hr, hr', -⟩ := h txin htxin
  rw [prevTxs, prevTxs, hr, hr']
  rfl

theorem Signed.congr {prevTx prevTx' : Uint256 → Option CTransaction}
    (h : ∀ txin ∈ vin, prevTx' txin.prevout.hash = prevTx txin.prevout.hash) :
    ∀ {i : Nat}, Signed C tx prevTx i vin → Signed C tx prevTx' i vin := by
  induction vin with
  | nil => exact fun _ => trivial
  | cons txin vin ih =>
    rintro i ⟨⟨txPrev, hprev, hverify⟩, hrest⟩
    refine ⟨⟨txPrev, (h txin List.mem_cons_self).trans hprev, hverify⟩, ?_⟩
    exact ih (fun txin' htxin' => h txin' (List.mem_cons_of_mem _ htxin')) hrest

/-- The first loop of `ConnectInputs` where the inputs agree and are mature. -/
theorem checkInputs_of_agree (hagree : InputsAgree inputs inputs' vin)
    (hmature : ∀ txin ∈ vin, ∀ r txPrev, inputs txin.prevout.hash = some (r, txPrev) →
      ctx'.immature r.pos.nFile r.pos.nBlockPos = true →
        ctx.immature r.pos.nFile r.pos.nBlockPos = true) :
    ∀ {n v : Int}, CTransaction.checkInputs ctx tx inputs n vin = some v →
      CTransaction.checkInputs ctx' tx inputs' n vin = some v := by
  induction vin with
  | nil => exact fun h => h
  | cons txin vin ih =>
    intro n v h
    obtain ⟨r, r', txPrev, hr, hr', hpos, hlength⟩ := hagree txin List.mem_cons_self
    have hold := hmature txin List.mem_cons_self r txPrev hr
    simp only [CTransaction.checkInputs, hr] at h
    simp only [CTransaction.checkInputs, hr', hpos, hlength]
    cases hout : txPrev.vout[txin.prevout.n]? with
    | none =>
      rw [hout] at h
      cases h
    | some txout =>
      simp only [hout] at h ⊢
      split_ifs at h with h₁ h₂ h₃ h₄
      have h₂' : ¬(((txPrev.isCoinBase || txPrev.isCoinStake) &&
          ctx'.immature r.pos.nFile r.pos.nBlockPos) = true) := by
        intro hyoung
        rw [Bool.and_eq_true] at hyoung
        exact h₂ (by rw [hyoung.1, hold hyoung.2]; rfl)
      rw [if_neg h₁, if_neg h₂', if_neg h₃, if_neg h₄]
      exact ih (fun txin' htxin' => hagree txin' (List.mem_cons_of_mem _ htxin'))
        (fun txin' htxin' => hmature txin' (List.mem_cons_of_mem _ htxin')) h

/-- What the second loop of `ConnectInputs` takes is signed. -/
theorem signed_of_spendInputs {fBlock fMiner : Bool} (hsig : ctx.checkSignatures = true) :
    ∀ {i : Nat} {inputs : MapPrevTx} {q q' : TxIndexQueue},
      CTransaction.spendInputs C ctx tx pos fBlock fMiner i vin inputs q = some q' →
      Signed C tx (prevTxs inputs) i vin := by
  induction vin with
  | nil => exact fun _ => trivial
  | cons txin vin ih =>
    intro i inputs q q' h
    rw [CTransaction.spendInputs] at h
    split at h
    · cases h
    · next r txPrev hr =>
      split at h
      · cases h
      · split at h
        · cases h
        · split at h
          · cases h
          · next hverify =>
            have hrest := ih h
            rw [prevTxs_update hr] at hrest
            rw [hsig, Bool.true_and] at hverify
            refine ⟨⟨txPrev, ?_, by simpa using hverify⟩, hrest⟩
            rw [prevTxs, hr]
            rfl

/-- **The second loop of `ConnectInputs`** goes through where the outputs are unspent, each in its
turn, and signed for. -/
theorem spendInputs_of_spendable {fBlock fMiner : Bool} (hf : (fBlock || fMiner) = true) :
    ∀ {i : Nat} {inputs : MapPrevTx} {q : TxIndexQueue},
      (∀ hash e, inputs hash = some e → overlay src.readTxIndex q hash = some e.1) →
      Spendable CDiskTxPos.isNull (overlay src.readTxIndex q)
        (vin.map fun txin => txin.prevout.toPair) pos →
      Signed C tx (prevTxs inputs) i vin →
      ∃ q', CTransaction.spendInputs C ctx tx pos fBlock fMiner i vin inputs q = some q' := by
  induction vin with
  | nil => exact fun _ _ _ => ⟨_, rfl⟩
  | cons txin vin ih =>
    intro i inputs q hin hspendable hsigned
    obtain ⟨⟨r, p, hr, hp, hnull⟩, hrest⟩ := hspendable
    obtain ⟨⟨txPrev, hprev, hverify⟩, hsigned⟩ := hsigned
    obtain ⟨⟨r', txPrev'⟩, hentry, rfl⟩ := Option.map_eq_some_iff.1 hprev
    obtain rfl := Option.some.inj ((hin _ _ hentry).symm.trans hr)
    simp only [COutPoint.toPair] at hp
    simp only [CTransaction.spendInputs, hentry, hp, hnull, Bool.not_true, Bool.false_eq_true,
      if_false, hverify, Bool.and_false, hf, if_true]
    refine ih ?_ ?_ ?_
    · intro hash e hget
      rw [overlay_insert]
      by_cases hh : hash = txin.prevout.hash
      · subst hh
        rw [Function.update_self] at hget ⊢
        obtain rfl := Option.some.inj hget
        rfl
      · rw [Function.update_of_ne hh] at hget ⊢
        exact hin hash e hget
    · have hmark : overlay src.readTxIndex (q.insert txin.prevout.hash
          { r' with vSpent := r'.vSpent.set txin.prevout.n pos }) =
          SpendIndex.mark (overlay src.readTxIndex q) txin.prevout.toPair pos := by
        rw [overlay_insert, SpendIndex.mark]
        simp only [COutPoint.toPair, hin _ _ hentry, Option.map_some]
      rw [hmark]
      exact hrest
    · rw [prevTxs_update hentry]
      exact hsigned

/-- **`ConnectInputs` takes a transaction wherever its inputs agree**, are unspent, and are no
younger than where it was taken with its signatures checked. -/
theorem connectInputs_of_agree {fBlock fMiner : Bool} {q q' q₁ : TxIndexQueue}
    (hcb : tx.isCoinBase = false) (hsig : ctx.checkSignatures = true)
    (hagree : InputsAgree inputs inputs' tx.vin)
    (hmature : ∀ txin ∈ tx.vin, ∀ r txPrev, inputs txin.prevout.hash = some (r, txPrev) →
      ctx'.immature r.pos.nFile r.pos.nBlockPos = true →
        ctx.immature r.pos.nFile r.pos.nBlockPos = true)
    (hin : ∀ hash e, inputs' hash = some e → overlay src.readTxIndex q' hash = some e.1)
    (hspendable : Spendable CDiskTxPos.isNull (overlay src.readTxIndex q')
      (tx.spends.map COutPoint.toPair) pos')
    (h : tx.connectInputs C ctx inputs q pos fBlock fMiner = some q₁) :
    ∃ q₂, tx.connectInputs C ctx' inputs' q' pos' true false = some q₂ := by
  have hspends : tx.spends.map COutPoint.toPair = tx.vin.map fun txin => txin.prevout.toPair := by
    simp [CTransaction.spends, hcb, Function.comp_def]
  rw [hspends] at hspendable
  simp only [CTransaction.connectInputs, hcb, Bool.false_eq_true, if_false] at h ⊢
  split at h
  · cases h
  · next v hcheck =>
    split at h
    · cases h
    · next q₂ hspend =>
      have hsigned := (signed_of_spendInputs hsig hspend).congr fun txin htxin =>
        hagree.prevTxs_eq htxin
      obtain ⟨q₃, hq₃⟩ := spendInputs_of_spendable (Bool.or_false true) hin hspendable hsigned
      rw [checkInputs_of_agree hagree hmature hcheck, hq₃]
      split at h
      · cases h
      · next hfees => exact ⟨q₃, if_neg hfees⟩

/-- The scripts that inputs pay to are the same where they agree. -/
theorem getP2SHSigOpCountFrom_of_agree (hagree : InputsAgree inputs inputs' vin) :
    ∀ n : Nat, CTransaction.getP2SHSigOpCountFrom C inputs' n vin =
      CTransaction.getP2SHSigOpCountFrom C inputs n vin := by
  induction vin with
  | nil => exact fun _ => rfl
  | cons txin vin ih =>
    intro n
    obtain ⟨r, r', txPrev, hr, hr', -⟩ := hagree txin List.mem_cons_self
    have hout : CTransaction.getOutputFor txin inputs' = CTransaction.getOutputFor txin inputs := by
      simp only [CTransaction.getOutputFor, hr, hr']
    rw [CTransaction.getP2SHSigOpCountFrom, CTransaction.getP2SHSigOpCountFrom, hout]
    cases CTransaction.getOutputFor txin inputs with
    | none => rfl
    | some prevout => exact ih (fun txin' htxin' => hagree txin' (List.mem_cons_of_mem _ htxin')) _

theorem isSome_getP2SHSigOpCountFrom
    (h : ∀ txin ∈ vin, (CTransaction.getOutputFor txin inputs).isSome) :
    ∀ n : Nat, (CTransaction.getP2SHSigOpCountFrom C inputs n vin).isSome := by
  induction vin with
  | nil => exact fun _ => rfl
  | cons txin vin ih =>
    intro n
    obtain ⟨txout, hout⟩ := Option.isSome_iff_exists.1 (h txin List.mem_cons_self)
    rw [CTransaction.getP2SHSigOpCountFrom, hout]
    exact ih (fun txin' h' => h txin' (List.mem_cons_of_mem _ h')) _

theorem getP2SHSigOpCount_of_agree (hagree : InputsAgree inputs inputs' tx.vin) :
    tx.getP2SHSigOpCount C inputs' = tx.getP2SHSigOpCount C inputs := by
  rw [CTransaction.getP2SHSigOpCount, CTransaction.getP2SHSigOpCount,
    getP2SHSigOpCountFrom_of_agree hagree]

end Agree

/-! ## Two places -/

section Elsewhere

variable {src src' : Sources} {q q' q₁ : TxIndexQueue} {ctx ctx' : CTransaction.ConnectCtx}
  {tx : CTransaction} {pos pos' : CDiskTxPos}

/-- What the miner fetches is what `ConnectBlock` fetches. -/
theorem fetchInputs_miner (src : Sources) (q : TxIndexQueue) (tx : CTransaction) :
    tx.fetchInputs src q false true = tx.fetchInputs src q true false := by
  have hloop : ∀ (vin : List CTxIn) (inputs : MapPrevTx),
      CTransaction.fetchLoop src q false true vin inputs =
        CTransaction.fetchLoop src q true false vin inputs := by
    intro vin
    induction vin with
    | nil => exact fun _ => rfl
    | cons txin vin ih =>
      intro inputs
      have hprev : CTransaction.fetchPrev src q false true txin.prevout.hash =
          CTransaction.fetchPrev src q true false txin.prevout.hash := rfl
      simp only [CTransaction.fetchLoop, hprev, ih]
  simp only [CTransaction.fetchInputs, hloop]

/-- **An input is found alike** in two places: the records lead to one transaction at one position,
and it is no younger in the second place than in the first. -/
structure FoundAlike (src src' : Sources) (q q' : TxIndexQueue)
    (ctx ctx' : CTransaction.ConnectCtx) (txin : CTxIn) (r r' : CTxIndex) (txPrev : CTransaction) :
    Prop where
  here : InputAt src q txin r txPrev
  there : InputAt src' q' txin r' txPrev
  pos : r'.pos = r.pos
  length : r'.vSpent.length = r.vSpent.length
  mature : ctx'.immature r.pos.nFile r.pos.nBlockPos = true →
    ctx.immature r.pos.nFile r.pos.nBlockPos = true

/-- **A transaction that connects in one place connects in another** where its inputs are found
alike and are unspent. -/
theorem connects_of_foundAlike {fBlock fMiner : Bool} (hcb : tx.isCoinBase = false)
    (hsig : ctx.checkSignatures = true)
    (halike : ∀ txin ∈ tx.vin, ∃ r r' txPrev, FoundAlike src src' q q' ctx ctx' txin r r' txPrev)
    (hspendable : Spendable CDiskTxPos.isNull (overlay src'.readTxIndex q')
      (tx.spends.map COutPoint.toPair) pos')
    (h : tx.connectInputs C ctx (tx.fetchInputs src q true false).inputsRet q pos fBlock fMiner =
      some q₁) :
    (tx.fetchInputs src' q' true false).ok = true ∧
      InputsAgree (tx.fetchInputs src q true false).inputsRet
        (tx.fetchInputs src' q' true false).inputsRet tx.vin ∧
      ∃ q₂, tx.connectInputs C ctx' (tx.fetchInputs src' q' true false).inputsRet q' pos' true
        false = some q₂ := by
  obtain ⟨-, hhere⟩ := fetchInputs_of_inputAt hcb fun txin htxin => by
    obtain ⟨r, r', txPrev, hfound⟩ := halike txin htxin
    exact ⟨r, txPrev, hfound.here⟩
  obtain ⟨hok, hthere⟩ := fetchInputs_of_inputAt hcb fun txin htxin => by
    obtain ⟨r, r', txPrev, hfound⟩ := halike txin htxin
    exact ⟨r', txPrev, hfound.there⟩
  have hagree : InputsAgree (tx.fetchInputs src q true false).inputsRet
      (tx.fetchInputs src' q' true false).inputsRet tx.vin := by
    intro txin htxin
    obtain ⟨r, r', txPrev, hfound⟩ := halike txin htxin
    exact ⟨r, r', txPrev, hhere txin htxin r txPrev hfound.here,
      hthere txin htxin r' txPrev hfound.there, hfound.pos, hfound.length⟩
  refine ⟨hok, hagree, connectInputs_of_agree hcb hsig hagree ?_ ?_ hspendable h⟩
  · intro txin htxin r txPrev hr
    obtain ⟨r₁, r₁', txPrev₁, hfound⟩ := halike txin htxin
    obtain ⟨rfl, rfl⟩ := Prod.mk.inj
      (Option.some.inj (hr.symm.trans (hhere txin htxin r₁ txPrev₁ hfound.here)))
    exact hfound.mature
  · exact fun hash e hget => (fetchInputs_spec (Bool.or_false true) hcb hok hash e.1 e.2 hget).1

end Elsewhere

end MotaCoin
