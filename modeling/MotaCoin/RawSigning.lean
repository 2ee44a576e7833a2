import MotaCoin.Signing

/-!
# Signing by several

`signrawtransaction`, with which the holders of keys sign a transaction: each call signs the inputs it
has keys for and merges in what the transactions that it is given carry already. Reading and writing
them in hexadecimal is left out, and so is where the outputs are found that they spend.

## Main definitions

* `RawSigner`, `signRawInput`, `signRawTransaction`: the call, and what it depends on
* `SignedBy`: what comes out of calls
* `CollectedSigs`: a stack of the signatures that the holders of some keys made

## Main results

* `MultiSigForm.collected_merge`: two such stacks are merged into one
* `SignedBy.accepts_iff_held`: a transaction verifies once enough of the keys have signed, whatever the
  order of the calls
-/

namespace MotaCoin

open Wire Greedy

/-! ## The code -/

/-- What a call of `signrawtransaction` depends on, but for the transactions. -/
structure RawSigner where
  keystore : CKeyStore
  /-- `mapPrevOut`. -/
  mapPrevOut : COutPoint → Option CScript
  nHashType : UInt32
  /-- `GetAdjustedTime`. -/
  nAdjustedTime : Nat

/-- `fHashSingle`. -/
def RawSigner.fHashSingle (p : RawSigner) : Bool :=
  p.nHashType &&& ~~~ SIGHASH_ANYONECANPAY == SIGHASH_SINGLE

/-- The `scriptSig` of an input. -/
def CTransaction.scriptSigAt (tx : CTransaction) (i : Nat) : CScript :=
  ((tx.vin[i]?).map CTxIn.scriptSig).getD []

section Code

variable (crypto : ScriptCrypto) (p : RawSigner)

/-- An input is signed: whether it is complete, and `mergedTx`. -/
def signRawInput (txVariants : List CTransaction) (mergedTx : CTransaction) (i : Nat) :
    Bool × CTransaction :=
  match ((mergedTx.vin[i]?).map CTxIn.prevout).bind p.mapPrevOut with
  | none => (false, mergedTx)
  | some prevPubKey =>
    let mergedTx := mergedTx.setScriptSig i []
    let mergedTx := if !p.fHashSingle || decide (i < mergedTx.vout.length) then
      (signSignature crypto p.keystore prevPubKey mergedTx i p.nHashType).2 else mergedTx
    let mergedTx := txVariants.foldl (fun tx txv => tx.setScriptSig i
      (combineSignatures ⟨crypto, tx, i, 0⟩ p.nAdjustedTime prevPubKey (tx.scriptSigAt i)
        (txv.scriptSigAt i))) mergedTx
    ((verifyScript ⟨crypto, mergedTx, i, 0⟩ (mergedTx.scriptSigAt i) prevPubKey).verdict, mergedTx)

/-- The loop over the inputs. -/
def signRawInputs (txVariants : List CTransaction) : List Nat → Bool → CTransaction →
    Bool × CTransaction
  | [], fComplete, mergedTx => (fComplete, mergedTx)
  | i :: is, fComplete, mergedTx =>
    let r := signRawInput crypto p txVariants mergedTx i
    signRawInputs txVariants is (fComplete && r.1) r.2

/-- `signrawtransaction`: whether the transaction is complete, and the transaction; none where it is
given none. -/
def signRawTransaction (txVariants : List CTransaction) : Option (Bool × CTransaction) :=
  match txVariants with
  | [] => none
  | tx :: _ => some (signRawInputs crypto p txVariants (List.range tx.vin.length) true tx)

end Code

/-! ## Stacks of signatures -/

/-- A stack of signatures that the holders of some of the keys made: either as many as the script asks
for, or one at least for each of these keys, which are too few. -/
structure CollectedSigs (ctx : SigContext) (script : CScript) (m : Nat) (keys : List Valtype)
    (held : Valtype → Bool) (stack : List Valtype) : Prop where
  sized : ∀ vch ∈ stack, vch.length ≤ 73
  length_le : stack.length ≤ 17
  sound : ∀ sig ∈ stack, sig ≠ [] → ∃ key ∈ keys, held key = true ∧ SigFits ctx script sig key
  enough : (∃ sigs, stack = sigs.reverse ++ [[]] ∧ sigs.length = m ∧
      Matches (SigFits ctx script) keys sigs) ∨
    keys.countP held < m ∧ ∀ key ∈ keys, held key = true → ∃ sig ∈ stack, SigFits ctx script sig key

/-- Where the signatures of several keys are told apart. -/
structure KeysApart (ctx : SigContext) (script : CScript) (keys : List Valtype) : Prop where
  isCanonical : ∀ key ∈ keys, isCanonicalPubKey key
  /-- A signature is valid for one of the keys at most. -/
  oneKey : ∀ sig, ∀ key ∈ keys, ∀ key' ∈ keys, checkSig ctx sig key script →
    checkSig ctx sig key' script → key = key'

section Stacks

variable {ctx ctx' : SigContext} {script : CScript} {m : Nat} {keys : List Valtype}
  {held held' : Valtype → Bool} {stack stack' : List Valtype}

theorem SameChecks.sigFits_iff (h : SameChecks ctx ctx') (sig key : Valtype) :
    SigFits ctx script sig key ↔ SigFits ctx' script sig key := by
  unfold SigFits
  rw [h.checkSig]

theorem CollectedSigs.congr (h : CollectedSigs ctx script m keys held stack) (hsame : SameChecks ctx ctx') :
    CollectedSigs ctx' script m keys held stack := by
  have hfits : SigFits ctx script = SigFits ctx' script :=
    funext fun sig => funext fun key => propext (hsame.sigFits_iff sig key)
  obtain ⟨hsized, hlen, hsound, henough⟩ := h
  rw [hfits] at henough
  simp only [hfits] at hsound henough
  exact ⟨hsized, hlen, hsound, henough⟩

/-- Only who holds the keys of the script matters. -/
theorem CollectedSigs.congr_held (h : CollectedSigs ctx script m keys held stack)
    (hheld : ∀ key ∈ keys, held key = held' key) : CollectedSigs ctx script m keys held' stack := by
  refine ⟨h.sized, h.length_le, fun sig hsig hne => ?_, h.enough.imp_right fun hall => ?_⟩
  · obtain ⟨key, hkey, htrue, hfits⟩ := h.sound sig hsig hne
    exact ⟨key, hkey, hheld key hkey ▸ htrue, hfits⟩
  · refine ⟨?_, fun key hkey htrue => hall.2 key hkey (hheld key hkey ▸ htrue)⟩
    have hcount : keys.countP held' = keys.countP held :=
      List.countP_congr fun key hkey => by rw [hheld key hkey]
    rw [hcount]
    exact hall.1

/-- Nobody has signed. -/
theorem collected_nil (hm : 1 ≤ m) (hheld : ∀ key ∈ keys, held key = false) :
    CollectedSigs ctx script m keys held [] := by
  refine ⟨nofun, Nat.zero_le _, nofun, .inr ⟨?_, fun key hkey htrue => ?_⟩⟩
  · rw [List.countP_eq_zero.mpr fun key hkey => by simp [hheld key hkey]]
    exact hm
  · rw [hheld key hkey] at htrue
    cases htrue

/-- Signatures that fit keys are none of the keys. -/
theorem KeysApart.canonical (h : KeysApart ctx script keys) {sigs : List Valtype} {code : CScript}
    (hmatch : Matches (SigFits ctx code) keys sigs) :
    ∀ sig ∈ sigs, isCanonicalSignature sig ∧ sig ∉ keys := by
  intro sig hsig
  obtain ⟨chosen, -, hfits⟩ := hmatch
  obtain ⟨key, -, hfit⟩ := exists_request hfits.flip hsig
  exact ⟨hfit.1, fun hmem => ne_of_isCanonical hfit.1 (h.isCanonical sig hmem) rfl⟩

/-- **A stack that was collected unlocks the script** if enough of the keys have signed. -/
theorem MultiSigForm.collected_unlocks_iff {keyOps : List Operation}
    (hform : MultiSigForm script m keyOps) (hlen : script.length ≤ 10000)
    (hapart : KeysApart ctx script (keyOps.map Prod.snd))
    (h : CollectedSigs ctx script m (keyOps.map Prod.snd) held stack) :
    Unlocks ctx stack script ↔ m ≤ (keyOps.map Prod.snd).countP held := by
  constructor
  · intro hunlocks
    obtain ⟨sigs, extra, rest, hstack, hlenSigs, hmatch⟩ := hform.exists_of_unlocks hunlocks
    rw [hform.multiSigCode_eq hlen (hapart.canonical hmatch)] at hmatch
    have hcount : ((keyOps.map Prod.snd).filterMap fun key => if held key then some key else none).length =
        (keyOps.map Prod.snd).countP held := by
      rw [List.length_filterMap_eq_countP]
      refine List.countP_congr fun key _ => ?_
      cases held key <;> simp
    rw [← hlenSigs, ← hcount]
    refine hmatch.length_le_filterMap fun sig hsig key hkey hfit => ?_
    -- a signature for the key is one that a holder of the key made
    have hmem : sig ∈ stack := hstack ▸ List.mem_append_left _ (List.mem_reverse.mpr hsig)
    obtain ⟨key', hkey', hheld, hfit'⟩ := h.sound sig hmem hfit.ne_nil
    rw [hapart.oneKey sig key hkey key' hkey' hfit.2.2 hfit'.2.2, if_pos hheld]
    rfl
  · intro hcount
    rcases h.enough with ⟨sigs, rfl, hlenSigs, hmatch⟩ | ⟨hlt, -⟩
    · refine (hform.unlocks_iff hlen hlenSigs ?_).mpr ?_
      · have := hform.max
        have := hform.le
        rw [List.length_append, List.length_reverse, List.length_singleton]
        omega
      · rwa [hform.multiSigCode_eq hlen (hapart.canonical hmatch)]
    · exact absurd hcount (Nat.not_le.mpr hlt)

/-! ### Merging -/

/-- The merged script, where too few keys have a signature. -/
theorem mergeSigs_of_lt {sigs : AList fun _ : Valtype => Valtype} {pubKeys : List Valtype} {n : Nat}
    (h : (pubKeys.filterMap sigs.lookup).length < n) :
    mergeSigs sigs pubKeys n = (pubKeys.filterMap sigs.lookup).flatMap pushData ++
      (List.replicate (n - (pubKeys.filterMap sigs.lookup).length) []).flatMap pushData := by
  induction pubKeys generalizing n with
  | nil =>
    rw [mergeSigs]
    · rw [List.filterMap_nil, List.flatMap_nil, List.nil_append, List.flatMap_def, List.map_replicate]
      rfl
    · exact fun _ _ _ h => absurd h.symm (List.cons_ne_nil _ _)
  | cons pubkey pubKeys ih =>
    obtain ⟨n, rfl⟩ := Nat.exists_eq_add_one_of_ne_zero (Nat.ne_zero_of_lt h)
    rw [mergeSigs]
    rw [List.filterMap_cons] at h ⊢
    cases hlookup : sigs.lookup pubkey with
    | none =>
      rw [hlookup] at h
      exact ih h
    | some sig =>
      rw [hlookup] at h
      dsimp only at h ⊢
      rw [ih (Nat.lt_of_succ_lt_succ h), List.flatMap_cons, List.append_assoc, List.length_cons,
        Nat.add_sub_add_right]

/-- The stack that signatures, and placeholders behind them, are left on. -/
def signedStack (n : Nat) (sigs : List Valtype) : List Valtype :=
  List.replicate n [] ++ (sigs.reverse ++ [[]])

theorem pushAll_signedStack (n : Nat) (sigs : List Valtype) : pushAll (signedStack n sigs) =
    ofOpcode OP_0 ++ (sigs.flatMap pushData ++ (List.replicate n []).flatMap pushData) := by
  unfold pushAll signedStack
  rw [List.reverse_append, List.reverse_append, List.reverse_reverse, List.reverse_replicate,
    List.flatMap_append, List.flatMap_append, List.append_assoc]
  rfl

theorem collected_signedStack {n : Nat} {sigs : List Valtype}
    (hsigs : ∀ sig ∈ sigs, ∃ key ∈ keys, held key = true ∧ SigFits ctx script sig key)
    (hlen : n + sigs.length ≤ 16)
    (henough : n = 0 ∧ sigs.length = m ∧ Matches (SigFits ctx script) keys sigs ∨
      keys.countP held < m ∧ ∀ key ∈ keys, held key = true → ∃ sig ∈ sigs, SigFits ctx script sig key) :
    CollectedSigs ctx script m keys held (signedStack n sigs) := by
  have hmem {vch : Valtype} : vch ∈ signedStack n sigs ↔ n ≠ 0 ∧ vch = [] ∨ vch ∈ sigs ∨ vch = [] := by
    rw [signedStack, List.mem_append, List.mem_replicate, List.mem_append, List.mem_reverse,
      List.mem_singleton]
  refine ⟨fun vch hvch => ?_, ?_, fun sig hsig hne => ?_, ?_⟩
  · rcases hmem.mp hvch with ⟨-, rfl⟩ | hsig | rfl
    · exact Nat.zero_le _
    · obtain ⟨key, -, -, hfits⟩ := hsigs vch hsig
      exact (length_le_of_isCanonicalSignature hfits.1).2
    · exact Nat.zero_le _
  · simp only [signedStack, List.length_append, List.length_replicate, List.length_reverse,
      List.length_singleton]
    omega
  · rcases hmem.mp hsig with ⟨-, rfl⟩ | hsig | rfl
    · exact absurd rfl hne
    · exact hsigs sig hsig
    · exact absurd rfl hne
  · refine henough.imp ?_ fun hall => ⟨hall.1, fun key hkey hheld => ?_⟩
    · rintro ⟨rfl, hlenSigs, hmatch⟩
      exact ⟨sigs, rfl, hlenSigs, hmatch⟩
    · obtain ⟨sig, hsig, hfits⟩ := hall.2 key hkey hheld
      exact ⟨sig, hmem.mpr (.inr (.inl hsig)), hfits⟩

/-- What the keys are assigned from two stacks. -/
theorem CollectedSigs.lookup_foldl_addSig (hapart : KeysApart ctx script keys)
    (h : CollectedSigs ctx script m keys held stack) (h' : CollectedSigs ctx script m keys held' stack')
    {key sig : Valtype} (hkey : key ∈ keys)
    (hlookup : ((allSigs stack stack').foldl (fun sigs sig => addSig ctx script sig sigs keys) ∅).lookup
      key = some sig) :
    SigFits ctx script sig key ∧ (held key || held' key) = true := by
  rcases MotaCoin.lookup_foldl_addSig hlookup with hold | ⟨hmem, hcheck⟩
  · cases hold
  · obtain ⟨hmem, hne⟩ := mem_allSigs.mp hmem
    rw [Bool.or_eq_true]
    rcases List.mem_append.mp hmem with hmem | hmem
    · obtain ⟨key', hkey', hheld, hfits⟩ := h.sound sig hmem hne
      obtain rfl := hapart.oneKey sig key hkey key' hkey' hcheck hfits.2.2
      exact ⟨hfits, .inl hheld⟩
    · obtain ⟨key', hkey', hheld, hfits⟩ := h'.sound sig hmem hne
      obtain rfl := hapart.oneKey sig key hkey key' hkey' hcheck hfits.2.2
      exact ⟨hfits, .inr hheld⟩

/-- A key that a signature of one of the stacks fits is assigned one. -/
theorem KeysApart.mem_foldl_addSig (hapart : KeysApart ctx script keys) {key sig : Valtype}
    (hkey : key ∈ keys) (hsig : sig ∈ stack ++ stack') (hfits : SigFits ctx script sig key) :
    key ∈ (allSigs stack stack').foldl (fun sigs sig => addSig ctx script sig sigs keys) ∅ := by
  exact MotaCoin.mem_foldl_addSig (mem_allSigs.mpr ⟨hsig, hfits.ne_nil⟩) hkey hfits.2.2
    fun key' hkey' hcheck => hapart.oneKey sig key' hkey' key hkey hcheck hfits.2.2

/-- Where too few keys are assigned a signature, all keys that signed are. -/
theorem CollectedSigs.mem_of_lt {sigs : AList fun _ : Valtype => Valtype}
    (h : CollectedSigs ctx script m keys held stack) (hlt : (keys.filterMap sigs.lookup).length < m)
    (hsigs : ∀ key ∈ keys, ∀ sig ∈ stack, SigFits ctx script sig key → key ∈ sigs) :
    ∀ key ∈ keys, held key = true → key ∈ sigs := by
  rcases h.enough with ⟨signed, hstack, hlen, hmatch⟩ | ⟨-, hall⟩
  · have hle : signed.length ≤ (keys.filterMap sigs.lookup).length := by
      refine hmatch.length_le_filterMap fun sig hsig key hkey hfits => ?_
      rw [AList.lookup_isSome]
      refine hsigs key hkey sig ?_ hfits
      rw [hstack]
      exact List.mem_append_left _ (List.mem_reverse.mpr hsig)
    omega
  · intro key hkey hheld
    obtain ⟨sig, hsig, hfits⟩ := hall key hkey hheld
    exact hsigs key hkey sig hsig hfits

/-- **Two stacks are merged into one** that the holders of the keys of both made. -/
theorem MultiSigForm.collected_merge {keyOps : List Operation} (hform : MultiSigForm script m keyOps)
    (hapart : KeysApart ctx script (keyOps.map Prod.snd))
    (h : CollectedSigs ctx script m (keyOps.map Prod.snd) held stack)
    (h' : CollectedSigs ctx script m (keyOps.map Prod.snd) held' stack') : ∃ merged,
      combineMultisig ctx script ([UInt8.ofNat m] :: keyOps.map Prod.snd ++ [[UInt8.ofNat keyOps.length]])
        stack stack' = pushAll merged ∧
      CollectedSigs ctx script m (keyOps.map Prod.snd) (fun key => held key || held' key) merged := by
  have hmax : m ≤ 16 := hform.le.trans hform.max
  have hrequired : ((([UInt8.ofNat m] :: keyOps.map Prod.snd ++
      [[UInt8.ofNat keyOps.length]]).headD []).headD 0).toNat = m := toNat_ofNat_of_le hmax
  unfold combineMultisig
  dsimp only
  rw [hrequired, pubKeysOf_multiSig]
  generalize keyOps.map Prod.snd = keys at *
  have hlookup := fun key hkey sig => @CollectedSigs.lookup_foldl_addSig _ _ _ _ _ _ _ _ hapart h h' key sig hkey
  have hassigned := fun key hkey sig => @KeysApart.mem_foldl_addSig _ _ _ stack stack' hapart key sig hkey
  generalize (allSigs stack stack').foldl (fun sigs sig => addSig ctx script sig sigs keys) ∅ = sigs
    at hlookup hassigned ⊢
  have hfits : ∀ sig ∈ keys.filterMap sigs.lookup, ∃ key ∈ keys, (held key || held' key) = true ∧
      SigFits ctx script sig key := by
    intro sig hsig
    obtain ⟨key, hkey, hsome⟩ := List.mem_filterMap.mp hsig
    exact ⟨key, hkey, (hlookup key hkey sig hsome).2, (hlookup key hkey sig hsome).1⟩
  have hmatch : Matches (SigFits ctx script) keys (keys.filterMap sigs.lookup) :=
    matches_filterMap fun key hkey sig hsome => (hlookup key hkey sig hsome).1
  by_cases henough : m ≤ (keys.filterMap sigs.lookup).length
  · refine ⟨signedStack 0 ((keys.filterMap sigs.lookup).take m), ?_, collected_signedStack
      (fun sig hsig => hfits sig (List.mem_of_mem_take hsig)) ?_
      (.inl ⟨rfl, List.length_take_of_le henough, hmatch.take m⟩)⟩
    · rw [mergeSigs_eq henough, pushAll_signedStack, List.replicate_zero, List.flatMap_nil,
        List.append_nil]
    · rw [List.length_take]
      omega
  · have hlt := Nat.not_le.mp henough
    have hmem : ∀ key ∈ keys, (held key || held' key) = true → key ∈ sigs := by
      intro key hkey hheld
      rcases Bool.or_eq_true _ _ ▸ hheld with hheld | hheld
      · exact h.mem_of_lt hlt (fun key hkey sig hsig => hassigned key hkey sig
          (List.mem_append_left _ hsig)) key hkey hheld
      · exact h'.mem_of_lt hlt (fun key hkey sig hsig => hassigned key hkey sig
          (List.mem_append_right _ hsig)) key hkey hheld
    refine ⟨signedStack (m - (keys.filterMap sigs.lookup).length) (keys.filterMap sigs.lookup), ?_,
      collected_signedStack hfits (by omega) (.inr ⟨?_, fun key hkey hheld => ?_⟩)⟩
    · rw [mergeSigs_of_lt hlt, pushAll_signedStack]
    · rw [List.length_filterMap_eq_countP] at hlt
      refine lt_of_le_of_lt (List.countP_mono_left fun key hkey hheld => ?_) hlt
      exact AList.lookup_isSome.mpr (hmem key hkey hheld)
    · obtain ⟨sig, hsome⟩ := Option.isSome_iff_exists.mp (AList.lookup_isSome.mpr (hmem key hkey hheld))
      exact ⟨sig, List.mem_filterMap.mpr ⟨key, hkey, hsome⟩, (hlookup key hkey sig hsome).1⟩

end Stacks

/-! ## Scripts of signatures -/

/-- An output that asks for some of the keys, itself or through the hash of the script. -/
structure AsksFor (crypto : ScriptCrypto) (scriptPubKey script : CScript) (m : Nat)
    (keyOps : List Operation) : Prop where
  form : MultiSigForm script m keyOps
  output : scriptPubKey = script ∨ ∃ hash : Valtype, hash.length = 20 ∧
    scriptPubKey = ofOpcode OP_HASH160 ++ 0x14 :: hash ++ ofOpcode OP_EQUAL ∧
      crypto.hash160 script = hash ∧ script.length ≤ 520

/-- A `scriptSig` of what the holders of some of the keys made. -/
def Collects (ctx : SigContext) (scriptPubKey script : CScript) (m : Nat) (keys : List Valtype)
    (held : Valtype → Bool) (scriptSig : CScript) : Prop :=
  if isPayToScriptHash scriptPubKey then
    scriptSig = [] ∧ (∀ key ∈ keys, held key = false) ∨
      ∃ stack, scriptSig = pushAll (script :: stack) ∧ CollectedSigs ctx script m keys held stack
  else ∃ stack, scriptSig = pushAll stack ∧ CollectedSigs ctx script m keys held stack

section Scripts

variable {ctx ctx' : SigContext} {crypto : ScriptCrypto} {scriptPubKey script scriptSig scriptSig' : CScript}
  {m : Nat} {keyOps : List Operation} {held held' : Valtype → Bool} {stack : List Valtype}

theorem MultiSigForm.standardForm (h : MultiSigForm script m keyOps) : StandardForm script .multiSig
    ([UInt8.ofNat m] :: keyOps.map Prod.snd ++ [[UInt8.ofNat keyOps.length]]) :=
  ⟨m, keyOps, h.pos, h.le, h.max, h.isKey, h.parses, rfl⟩

theorem MultiSigForm.not_isPayToScriptHash (h : MultiSigForm script m keyOps) :
    ¬ isPayToScriptHash script := by
  intro hp2sh
  obtain ⟨hash, hhash, rfl⟩ := isPayToScriptHash_iff.mp hp2sh
  have htype := congrArg Solution.type
    ((standardForm_scriptHash hhash).solver_eq.symm.trans h.standardForm.solver_eq)
  cases htype

theorem MultiSigForm.ne_nil (h : MultiSigForm script m keyOps) : script ≠ [] := by
  rintro rfl
  obtain ⟨pc, hop, -⟩ := parsesAs_cons_iff.mp h.parses
  cases hop

theorem Collects.congr {keys : List Valtype} (h : Collects ctx scriptPubKey script m keys held scriptSig)
    (hsame : SameChecks ctx ctx') : Collects ctx' scriptPubKey script m keys held scriptSig := by
  unfold Collects at h ⊢
  split_ifs at h ⊢
  · exact h.imp_right fun ⟨stack, hstack, hcollected⟩ => ⟨stack, hstack, hcollected.congr hsame⟩
  · obtain ⟨stack, hstack, hcollected⟩ := h
    exact ⟨stack, hstack, hcollected.congr hsame⟩

/-- A script of pushes opens what its stack opens. -/
theorem accepts_pushAll_iff (hsized : Sized stack) (hlen : (pushAll stack).length ≤ 10000)
    (hmax : stack.length ≤ 1000) : Accepts ctx (pushAll stack) scriptPubKey ↔ Opens ctx stack scriptPubKey := by
  refine ⟨fun haccepts => ?_, fun hopens => accepts_pushAll hopens hsized hlen hmax⟩
  obtain ⟨stack', heval, hopens, -⟩ := accepts_iff.mp haccepts
  rwa [Option.some.inj ((evalScript_pushAll hsized hlen hmax).symm.trans heval)]

theorem stackLeft_pushAll (hsized : Sized stack) (hlen : (pushAll stack).length ≤ 10000)
    (hmax : stack.length ≤ 1000) : stackLeft ctx (pushAll stack) = stack :=
  stackLeft_of_evalScript (evalScript_pushAll hsized hlen hmax)

/-- Nothing is left by an empty script. -/
theorem evalScript_nil : (evalScript ctx [] []).result = some [] :=
  @evalScript_pushAll ctx [] (List.forall_mem_nil _) (Nat.zero_le _) (Nat.zero_le _)

theorem CollectedSigs.small {keys : List Valtype} (h : CollectedSigs ctx script m keys held stack) :
    Sized stack ∧ (pushAll stack).length ≤ 10000 ∧ stack.length ≤ 1000 := by
  have hpush := length_pushAll_le_of_sized h.sized
  have hlen := h.length_le
  exact ⟨fun vch hvch => (h.sized vch hvch).trans (by decide), by omega, by omega⟩

/-- The same with the script on top. -/
theorem CollectedSigs.small_cons {keys : List Valtype} (h : CollectedSigs ctx script m keys held stack)
    (hscript : script.length ≤ 520) : Sized (script :: stack) ∧
      (pushAll (script :: stack)).length ≤ 10000 ∧ (script :: stack).length ≤ 1000 := by
  have hpush := length_pushAll_le_of_sized h.sized
  have hdata := length_pushData_le hscript
  have hlen := h.length_le
  refine ⟨List.forall_mem_cons.mpr ⟨hscript, h.small.1⟩, ?_, ?_⟩
  · rw [pushAll_cons, List.length_append]
    omega
  · rw [List.length_cons]
    omega

/-- **The input verifies** once enough of the keys have signed. -/
theorem AsksFor.accepts_iff (h : AsksFor ctx.crypto scriptPubKey script m keyOps)
    (hapart : KeysApart ctx script (keyOps.map Prod.snd))
    (hcollects : Collects ctx scriptPubKey script m (keyOps.map Prod.snd) held scriptSig) :
    Accepts ctx scriptSig scriptPubKey ↔ m ≤ (keyOps.map Prod.snd).countP held := by
  have hlen : script.length ≤ 10000 := h.form.standardForm.length_le.trans (by decide)
  unfold Collects at hcollects
  rcases h.output with rfl | ⟨hash, hhash, rfl, hid, hscript⟩
  · rw [if_neg h.form.not_isPayToScriptHash] at hcollects
    obtain ⟨stack, rfl, hstack⟩ := hcollects
    obtain ⟨hsized, hpush, hmax⟩ := hstack.small
    rw [accepts_pushAll_iff hsized hpush hmax, ← h.form.collected_unlocks_iff hlen hapart hstack]
    exact and_iff_left fun hp2sh => absurd hp2sh h.form.not_isPayToScriptHash
  · have hp2sh := isPayToScriptHash_iff.mpr ⟨hash, hhash, rfl⟩
    rw [if_pos hp2sh] at hcollects
    rcases hcollects with ⟨rfl, hnone⟩ | ⟨stack, rfl, hstack⟩
    · have hcount : (keyOps.map Prod.snd).countP held = 0 :=
        List.countP_eq_zero.mpr fun key hkey => by simp [hnone key hkey]
      have hpos := h.form.pos
      refine iff_of_false (fun haccepts => ?_) (by omega)
      obtain ⟨stack, heval, hopens, -⟩ := MotaCoin.accepts_iff.mp haccepts
      obtain ⟨redeem, rest, rfl, -⟩ := hopens.2 hp2sh
      cases evalScript_nil.symm.trans heval
    · obtain ⟨hsized, hpush, hmax⟩ := hstack.small_cons hscript
      rw [accepts_pushAll_iff hsized hpush hmax, ← h.form.collected_unlocks_iff hlen hapart hstack]
      constructor
      · rintro ⟨-, hredeem⟩
        obtain ⟨redeem, rest, hcons, hunlocks⟩ := hredeem hp2sh
        obtain ⟨rfl, rfl⟩ := List.cons_eq_cons.mp hcons
        exact hunlocks
      · have hroom := hstack.length_le
        exact fun hunlocks => ⟨(unlocks_scriptHash hhash).mpr ⟨by omega, hid⟩,
          fun _ => ⟨script, stack, rfl, hunlocks⟩⟩

theorem combineSolved_scriptHash (hne : script ≠ []) (vSolutions sigs1 sigs2 : List Valtype) :
    combineSolved ctx scriptPubKey .scriptHash vSolutions (script :: sigs1) (script :: sigs2) =
      combineSolved ctx script (solver script).type (solver script).vSolutions sigs1 sigs2 ++
        pushData script := by
  cases script with
  | nil => exact absurd rfl hne
  | cons first script =>
    rw [combineSolved]
    all_goals exact List.cons_ne_nil _ _

theorem combineSolved_scriptHash_nil (hne : script ≠ []) (vSolutions sigs1 : List Valtype) :
    combineSolved ctx scriptPubKey .scriptHash vSolutions (script :: sigs1) [] =
      pushAll (script :: sigs1) := by
  cases script with
  | nil => exact absurd rfl hne
  | cons first script =>
    rw [combineSolved]
    · exact List.cons_ne_nil _ _
    · exact fun _ h => List.cons_ne_nil _ _ (List.cons.inj h).1

/-- **Two `scriptSig`s are merged into one** of what the holders of the keys of both made. -/
theorem AsksFor.combineSignatures (h : AsksFor ctx.crypto scriptPubKey script m keyOps)
    (hapart : KeysApart ctx script (keyOps.map Prod.snd)) (hzero : ctx.nHashType = 0)
    (hcollects : Collects ctx scriptPubKey script m (keyOps.map Prod.snd) held scriptSig)
    (hcollects' : Collects ctx scriptPubKey script m (keyOps.map Prod.snd) held' scriptSig')
    (nAdjustedTime : Nat) :
    Collects ctx scriptPubKey script m (keyOps.map Prod.snd) (fun key => held key || held' key)
      (combineSignatures ctx nAdjustedTime scriptPubKey scriptSig scriptSig') := by
  have hctx : { ctx with nHashType := 0 } = ctx := by
    rw [← hzero]
  unfold MotaCoin.combineSignatures Collects at *
  dsimp only
  rw [hctx]
  rcases h.output with rfl | ⟨hash, hhash, rfl, hid, hscript⟩
  · rw [if_neg h.form.not_isPayToScriptHash] at hcollects hcollects' ⊢
    obtain ⟨stack, rfl, hstack⟩ := hcollects
    obtain ⟨stack', rfl, hstack'⟩ := hcollects'
    obtain ⟨merged, hcode, hmerged⟩ := h.form.collected_merge hapart hstack hstack'
    refine ⟨merged, ?_, hmerged⟩
    rw [h.form.standardForm.solver_eq, stackLeft_pushAll hstack.small.1 hstack.small.2.1 hstack.small.2.2,
      stackLeft_pushAll hstack'.small.1 hstack'.small.2.1 hstack'.small.2.2, combineSolved, hcode]
  · have hp2sh := isPayToScriptHash_iff.mpr ⟨hash, hhash, rfl⟩
    rw [if_pos hp2sh] at hcollects hcollects' ⊢
    rw [(standardForm_scriptHash hhash).solver_eq]
    have hnil : stackLeft (ctx.blank nAdjustedTime) [] = [] := stackLeft_of_evalScript evalScript_nil
    rcases hcollects with ⟨rfl, hnone⟩ | ⟨stack, rfl, hstack⟩
    · rw [hnil, combineSolved]
      rcases hcollects' with ⟨rfl, hnone'⟩ | ⟨stack', rfl, hstack'⟩
      · refine .inl ⟨?_, fun key hkey => ?_⟩
        · rw [hnil]
          rfl
        · rw [hnone key hkey, hnone' key hkey, Bool.or_false]
      · obtain ⟨hsized', hpush', hmax'⟩ := hstack'.small_cons hscript
        refine .inr ⟨stack', ?_, hstack'.congr_held fun key hkey => ?_⟩
        · rw [stackLeft_pushAll hsized' hpush' hmax']
        · rw [hnone key hkey, Bool.false_or]
    · obtain ⟨hsized, hpush, hmax⟩ := hstack.small_cons hscript
      rw [stackLeft_pushAll hsized hpush hmax]
      rcases hcollects' with ⟨rfl, hnone'⟩ | ⟨stack', rfl, hstack'⟩
      · refine .inr ⟨stack, ?_, hstack.congr_held fun key hkey => ?_⟩
        · rw [hnil, combineSolved_scriptHash_nil h.form.ne_nil]
        · rw [hnone' key hkey, Bool.or_false]
      · obtain ⟨hsized', hpush', hmax'⟩ := hstack'.small_cons hscript
        obtain ⟨merged, hcode, hmerged⟩ := h.form.collected_merge hapart hstack hstack'
        refine .inr ⟨merged, ?_, hmerged⟩
        rw [stackLeft_pushAll hsized' hpush' hmax', combineSolved_scriptHash h.form.ne_nil,
          h.form.standardForm.solver_eq, combineSolved, hcode, pushAll_cons]

end Scripts

/-! ## What a call adds -/

/-- The call signs for the key: it has the key and, where the output asks for it, the script. -/
def RawSigner.holds (p : RawSigner) (crypto : ScriptCrypto) (scriptPubKey script : CScript)
    (tx : CTransaction) (i : Nat) (key : Valtype) : Bool :=
  (!p.fHashSingle || decide (i < tx.vout.length)) &&
    (!isPayToScriptHash scriptPubKey ||
      (p.keystore.mapScripts.lookup (crypto.getID script)).isSome) &&
    (p.keystore.getKey (crypto.getID key)).isSome

section Adds

variable {crypto : ScriptCrypto} {keystore : CKeyStore} {nHashType : UInt32}
  {scriptPubKey script : CScript} {m : Nat} {keyOps : List Operation} {tx : CTransaction} {i : Nat}

/-- The signatures that a key store makes. -/
theorem CKeyStore.Works.collected (h : keystore.Works crypto) (htype : nHashType ∈ sigHashValues)
    {keys : List Valtype} (hmax : m ≤ 16) : CollectedSigs ⟨crypto, tx, i, 0⟩ script m keys
      (fun key => (keystore.getKey (crypto.getID key)).isSome)
      (signedStack 0 ((keys.filterMap (keystore.signature crypto
        (crypto.sigHash script tx i nHashType) nHashType)).take m)) := by
  have hsome (key : Valtype) : (keystore.signature crypto (crypto.sigHash script tx i nHashType)
      nHashType key).isSome = (keystore.getKey (crypto.getID key)).isSome := by
    unfold CKeyStore.signature
    cases hkey : keystore.getKey (crypto.getID key) with
    | none => rfl
    | some k =>
      obtain ⟨vchSig, hsign, -⟩ := h.sign _ k hkey (crypto.sigHash script tx i nHashType)
      rw [Option.bind_some, hsign]
      rfl
  have hfits := fun pubkey sig => @CKeyStore.Works.sigFits_signature _ _ _ tx i h htype script pubkey sig
  generalize keystore.signature crypto (crypto.sigHash script tx i nHashType) nHashType = pick
    at hsome hfits ⊢
  refine collected_signedStack (fun sig hsig => ?_) (by rw [List.length_take]; omega) ?_
  · obtain ⟨key, hkey, hpick⟩ := List.mem_filterMap.mp (List.mem_of_mem_take hsig)
    exact ⟨key, hkey, hsome key ▸ Option.isSome_of_eq_some hpick, hfits key sig hpick⟩
  · by_cases henough : m ≤ (keys.filterMap pick).length
    · exact .inl ⟨rfl, List.length_take_of_le henough,
        (matches_filterMap fun key _ sig hpick => hfits key sig hpick).take m⟩
    · have hlt := Nat.not_le.mp henough
      rw [List.take_of_length_le hlt.le]
      refine .inr ⟨?_, fun key hkey hheld => ?_⟩
      · rw [List.length_filterMap_eq_countP] at hlt
        simpa only [hsome] using hlt
      · obtain ⟨sig, hpick⟩ := Option.isSome_iff_exists.mp ((hsome key).trans hheld)
        exact ⟨sig, List.mem_filterMap.mpr ⟨key, hkey, hpick⟩, hfits key sig hpick⟩

/-- What is signed for the script itself. -/
theorem MultiSigForm.signSolved_eq (h : MultiSigForm script m keyOps) (hash : Uint256) :
    ∃ solved, signSolved crypto keystore script hash nHashType = ⟨solved, pushAll (signedStack 0
      (((keyOps.map Prod.snd).filterMap (keystore.signature crypto hash nHashType)).take m)),
      .multiSig⟩ := by
  refine ⟨(((keyOps.map Prod.snd).filterMap
    (keystore.signature crypto hash nHashType)).take m).length == m, ?_⟩
  unfold signSolved
  rw [h.standardForm.solver_eq]
  simp only [Bool.not_true, Bool.false_eq_true, if_false]
  rw [signN_eq (h.le.trans h.max), pushAll_signedStack, List.replicate_zero, List.flatMap_nil,
    List.append_nil]

/-- The `scriptSig` that is put in for an output that is no script hash. -/
theorem signSignature_snd {solved : Bool} {scriptSig : CScript} {type : TxnOutType}
    (hsolved : signSolved crypto keystore scriptPubKey
      (crypto.sigHash scriptPubKey tx i nHashType) nHashType = ⟨solved, scriptSig, type⟩)
    (hne : solved = true → type ≠ .scriptHash) :
    (signSignature crypto keystore scriptPubKey tx i nHashType).2 = tx.setScriptSig i scriptSig := by
  unfold signSignature
  rw [hsolved]
  cases solved with
  | false => rfl
  | true => simp only [Bool.not_true, Bool.false_eq_true, if_false, if_neg (hne rfl)]

/-- The `scriptSig` that is put in for a script hash. -/
theorem signSignature_snd_scriptHash {redeemScript : CScript}
    (hsolved : signSolved crypto keystore scriptPubKey
      (crypto.sigHash scriptPubKey tx i nHashType) nHashType = ⟨true, redeemScript, .scriptHash⟩) :
    (signSignature crypto keystore scriptPubKey tx i nHashType).2 = tx.setScriptSig i
      ((signSolved crypto keystore redeemScript (crypto.sigHash redeemScript tx i nHashType)
        nHashType).scriptSigRet ++ pushData redeemScript) := by
  have hhash := @ScriptCrypto.sigHash_congr crypto _ _
    (tx.unsigned_setScriptSig i redeemScript) redeemScript i nHashType
  unfold signSignature
  simp only [hsolved, Bool.not_true, Bool.false_eq_true, if_false, if_true, hhash,
    CTransaction.setScriptSig_setScriptSig]
  split_ifs <;> rfl

/-- **What a call signs with its own keys.** -/
theorem AsksFor.signSignature {p : RawSigner} (h : AsksFor crypto scriptPubKey script m keyOps)
    (hworks : p.keystore.Works crypto) (htype : p.nHashType ∈ sigHashValues)
    (hscript : ∀ script', crypto.getID script' = crypto.getID script → script' = script) :
    ∃ scriptSig,
      (if !p.fHashSingle || decide (i < tx.vout.length) then
        (signSignature crypto p.keystore scriptPubKey (tx.setScriptSig i []) i p.nHashType).2
        else tx.setScriptSig i []) = tx.setScriptSig i scriptSig ∧
      Collects ⟨crypto, tx, i, 0⟩ scriptPubKey script m (keyOps.map Prod.snd)
        (p.holds crypto scriptPubKey script tx i) scriptSig := by
  have hhash (code : CScript) := @ScriptCrypto.sigHash_congr crypto _ _
    (tx.unsigned_setScriptSig i []) code i p.nHashType
  have hset (scriptSig : CScript) := tx.setScriptSig_setScriptSig i [] scriptSig
  -- what the keys sign, and what is left where nothing is signed
  obtain ⟨solved, hsolved⟩ := @MultiSigForm.signSolved_eq crypto p.keystore p.nHashType script m keyOps
    h.form (crypto.sigHash script tx i p.nHashType)
  have hcollected := @CKeyStore.Works.collected crypto p.keystore p.nHashType script m tx i hworks htype
    (keyOps.map Prod.snd) (h.form.le.trans h.form.max)
  have hnone (hheld : ∀ key, p.holds crypto scriptPubKey script tx i key = false) :
      Collects ⟨crypto, tx, i, 0⟩ scriptPubKey script m (keyOps.map Prod.snd)
        (p.holds crypto scriptPubKey script tx i) [] := by
    unfold Collects
    split_ifs
    · exact .inl ⟨rfl, fun key _ => hheld key⟩
    · exact ⟨[], rfl, collected_nil h.form.pos fun key _ => hheld key⟩
  by_cases hsigns : (!p.fHashSingle || decide (i < tx.vout.length)) = true
  · rw [if_pos hsigns]
    rcases h.output with rfl | ⟨hash, hlen, hscriptPubKey, hid, -⟩
    · rw [← hhash] at hsolved
      refine ⟨_, (signSignature_snd hsolved fun _ => by decide).trans (hset _), ?_⟩
      rw [hhash]
      unfold Collects
      rw [if_neg h.form.not_isPayToScriptHash]
      refine ⟨_, rfl, hcollected.congr_held fun key _ => ?_⟩
      rw [RawSigner.holds, hsigns, Bool.eq_false_of_not_eq_true h.form.not_isPayToScriptHash]
      rfl
    · have hp2sh : isPayToScriptHash scriptPubKey :=
        isPayToScriptHash_iff.mpr ⟨hash, hlen, hscriptPubKey⟩
      have hform : StandardForm scriptPubKey .scriptHash [hash] := ⟨hash, hlen, hscriptPubKey, rfl⟩
      have hkey : ofLE hash = crypto.getID script := by
        rw [← hid]
        rfl
      have hfirst (hashTx : Uint256) : signSolved crypto p.keystore scriptPubKey hashTx p.nHashType =
          match p.keystore.mapScripts.lookup (ofLE hash) with
          | none => ⟨false, [], .scriptHash⟩
          | some redeemScript => ⟨true, redeemScript, .scriptHash⟩ := by
        unfold signSolved
        rw [hform.solver_eq]
        rfl
      have hsame : p.keystore.mapScripts.lookup (ofLE hash) =
        p.keystore.mapScripts.lookup (crypto.getID script) := congrArg p.keystore.mapScripts.lookup hkey
      cases hlookup : p.keystore.mapScripts.lookup (crypto.getID script) with
      | none =>
        refine ⟨[], (signSignature_snd ((hfirst _).trans (by rw [hsame, hlookup])) fun hfalse =>
          absurd hfalse Bool.false_ne_true).trans (hset _), hnone fun key => ?_⟩
        rw [RawSigner.holds, hlookup, hp2sh]
        simp
      | some redeemScript =>
        obtain rfl := hscript redeemScript (hworks.getID_script _ _ hlookup)
        refine ⟨_, (signSignature_snd_scriptHash ((hfirst _).trans (by rw [hsame, hlookup]))).trans
          (hset _), ?_⟩
        rw [hhash, hsolved, ← pushAll_cons]
        unfold Collects
        rw [if_pos hp2sh]
        refine .inr ⟨_, rfl, hcollected.congr_held fun key _ => ?_⟩
        rw [RawSigner.holds, hsigns, hp2sh, hlookup]
        rfl
  · rw [if_neg hsigns]
    refine ⟨[], rfl, hnone fun key => ?_⟩
    rw [RawSigner.holds, Bool.eq_false_of_not_eq_true hsigns]
    rfl

end Adds

/-! ## What a call does -/

section Calls

variable {crypto : ScriptCrypto} {p : RawSigner} {txVariants : List CTransaction}
  {tx tx' : CTransaction} {i : Nat}

theorem CTransaction.scriptSigAt_setScriptSig (hi : i < tx.vin.length) (scriptSig : CScript) :
    (tx.setScriptSig i scriptSig).scriptSigAt i = scriptSig := by
  rw [scriptSigAt, getElem?_setScriptSig (List.getElem?_eq_getElem hi)]
  rfl

theorem CTransaction.prevout_of_unsigned (h : tx.unsigned = tx'.unsigned) (i : Nat) :
    (tx.vin[i]?).map CTxIn.prevout = (tx'.vin[i]?).map CTxIn.prevout := by
  have hvin := congrArg (fun t : CTransaction => (t.vin[i]?).map CTxIn.prevout) h
  simp only [unsigned, List.getElem?_map, Option.map_map] at hvin
  exact hvin

/-- The transaction has the input. -/
theorem CTransaction.lt_length_of_prevout (h : tx.unsigned = tx'.unsigned) {prevout : COutPoint}
    (hi : (tx'.vin[i]?).map CTxIn.prevout = some prevout) : i < tx.vin.length := by
  rw [← prevout_of_unsigned h] at hi
  obtain ⟨txin, hvin, -⟩ := Option.map_eq_some_iff.mp hi
  exact (List.getElem?_eq_some_iff.mp hvin).1

theorem CTransaction.vout_of_unsigned (h : tx.unsigned = tx'.unsigned) : tx.vout = tx'.vout := by
  change tx.unsigned.vout = tx'.unsigned.vout
  rw [h]

/-- Merging in sets the `scriptSig` of the input. -/
theorem exists_combine (f : CTransaction → CTransaction → CScript) (scriptSig : CScript) :
    ∃ scriptSig', txVariants.foldl (fun tx txv => tx.setScriptSig i (f tx txv))
      (tx.setScriptSig i scriptSig) = tx.setScriptSig i scriptSig' := by
  induction txVariants generalizing scriptSig with
  | nil => exact ⟨scriptSig, rfl⟩
  | cons txv txVariants ih =>
    rw [List.foldl_cons, CTransaction.setScriptSig_setScriptSig]
    exact ih _

/-- An input that is signed keeps the rest of the transaction. -/
theorem exists_signRawInput : (signRawInput crypto p txVariants tx i).2 = tx ∨
    ∃ scriptSig, (signRawInput crypto p txVariants tx i).2 = tx.setScriptSig i scriptSig := by
  unfold signRawInput
  split
  · exact .inl rfl
  · next prevPubKey _ =>
    dsimp only
    split_ifs
    · obtain ⟨scriptSig, hsign, -⟩ := @exists_signSignature crypto p.keystore p.nHashType prevPubKey
        (tx.setScriptSig i []) i
      rw [hsign, CTransaction.setScriptSig_setScriptSig]
      exact .inr (exists_combine _ scriptSig)
    · exact .inr (exists_combine _ [])

theorem unsigned_signRawInput : (signRawInput crypto p txVariants tx i).2.unsigned = tx.unsigned := by
  rcases @exists_signRawInput crypto p txVariants tx i with hsame | ⟨scriptSig, hset⟩
  · rw [hsame]
  · rw [hset, CTransaction.unsigned_setScriptSig]

theorem unsigned_signRawInputs (is : List Nat) (fComplete : Bool) :
    (signRawInputs crypto p txVariants is fComplete tx).2.unsigned = tx.unsigned := by
  induction is generalizing fComplete tx with
  | nil => rfl
  | cons j is ih =>
    rw [signRawInputs, ih]
    exact unsigned_signRawInput

/-- The loop leaves the other inputs alone. -/
theorem getElem?_signRawInputs {is : List Nat} (hi : i ∉ is) (fComplete : Bool) :
    (signRawInputs crypto p txVariants is fComplete tx).2.vin[i]? = tx.vin[i]? := by
  induction is generalizing fComplete tx with
  | nil => rfl
  | cons j is ih =>
    obtain ⟨hne, hrest⟩ := not_or.mp (mt List.mem_cons.mpr hi)
    rw [signRawInputs, ih hrest]
    rcases @exists_signRawInput crypto p txVariants tx j with hsame | ⟨scriptSig, hset⟩
    · rw [hsame]
    · rw [hset, CTransaction.getElem?_setScriptSig_ne (Ne.symm hne)]

/-- The loop signs an input once, in a transaction that differs in `scriptSig`s. -/
theorem exists_signRawInputs {is : List Nat} (hi : i ∈ is) (hnodup : is.Nodup) (fComplete : Bool) :
    ∃ tx' : CTransaction, tx'.unsigned = tx.unsigned ∧
      (signRawInputs crypto p txVariants is fComplete tx).2.vin[i]? =
        (signRawInput crypto p txVariants tx' i).2.vin[i]? := by
  induction is generalizing fComplete tx with
  | nil => exact absurd hi List.not_mem_nil
  | cons j is ih =>
    obtain ⟨hj, hnodup⟩ := List.nodup_cons.mp hnodup
    rw [signRawInputs]
    rcases List.mem_cons.mp hi with rfl | hi
    · exact ⟨tx, rfl, getElem?_signRawInputs hj _⟩
    · obtain ⟨tx', hunsigned, hvin⟩ := ih hi hnodup _
      exact ⟨tx', hunsigned.trans unsigned_signRawInput, hvin⟩

end Calls

/-! ## Transactions that are handed on -/

/-- What comes out of calls, and who made them. -/
inductive SignedBy (crypto : ScriptCrypto) (tx₀ : CTransaction) : List RawSigner → CTransaction → Prop
  /-- Nobody has signed. -/
  | unsigned : SignedBy crypto tx₀ [] tx₀.unsigned
  /-- A call is given what other calls have made. -/
  | call (p : RawSigner) (variants : List (List RawSigner × CTransaction)) (r : Bool × CTransaction)
      (hsigned : ∀ v ∈ variants, SignedBy crypto tx₀ v.1 v.2)
      (hcall : signRawTransaction crypto p (variants.map Prod.snd) = some r) :
      SignedBy crypto tx₀ (p :: variants.flatMap Prod.fst) r.2

/-- One of those who signed holds the key. -/
def heldBy (crypto : ScriptCrypto) (scriptPubKey script : CScript) (tx : CTransaction) (i : Nat)
    (signers : List RawSigner) (key : Valtype) : Bool :=
  signers.any fun p => p.holds crypto scriptPubKey script tx i key

section Handed

variable {crypto : ScriptCrypto} {tx₀ tx : CTransaction} {signers : List RawSigner} {p : RawSigner}
  {scriptPubKey script : CScript} {m : Nat} {keyOps : List Operation} {i : Nat} {prevout : COutPoint}

theorem SignedBy.unsigned_eq (h : SignedBy crypto tx₀ signers tx) : tx.unsigned = tx₀.unsigned := by
  induction h with
  | unsigned =>
    unfold CTransaction.unsigned
    simp only [List.map_map]
    rfl
  | call p variants r _ hcall ih =>
    unfold signRawTransaction at hcall
    split at hcall
    · cases hcall
    · next tx txs hvariants =>
      obtain rfl := Option.some.inj hcall
      rw [unsigned_signRawInputs]
      have hmem : tx ∈ variants.map Prod.snd := hvariants ▸ List.mem_cons_self
      obtain ⟨v, hv, rfl⟩ := List.mem_map.mp hmem
      exact ih v hv

theorem KeysApart.congr {ctx ctx' : SigContext} {keys : List Valtype} (h : KeysApart ctx script keys)
    (hsame : SameChecks ctx ctx') : KeysApart ctx' script keys := by
  refine ⟨h.isCanonical, fun sig key hkey key' hkey' hcheck hcheck' => ?_⟩
  rw [← hsame.checkSig] at hcheck hcheck'
  exact h.oneKey sig key hkey key' hkey' hcheck hcheck'

/-- **Merging in what others signed.** -/
theorem AsksFor.combine (h : AsksFor crypto scriptPubKey script m keyOps)
    (hapart : KeysApart ⟨crypto, tx, i, 0⟩ script (keyOps.map Prod.snd)) (hi : i < tx.vin.length)
    (nAdjustedTime : Nat) {variants : List (List RawSigner × CTransaction)}
    {held : List RawSigner → Valtype → Bool} (hcons : ∀ signers signers' key,
      held (signers ++ signers') key = (held signers key || held signers' key))
    (hvariants : ∀ v ∈ variants, Collects ⟨crypto, tx, i, 0⟩ scriptPubKey script m
      (keyOps.map Prod.snd) (held v.1) (v.2.scriptSigAt i)) {signers : List RawSigner}
    {scriptSig : CScript} (hcollects : Collects ⟨crypto, tx, i, 0⟩ scriptPubKey script m
      (keyOps.map Prod.snd) (held signers) scriptSig) :
    Collects ⟨crypto, tx, i, 0⟩ scriptPubKey script m (keyOps.map Prod.snd)
      (held (signers ++ variants.flatMap Prod.fst))
      (((variants.map Prod.snd).foldl (fun tx txv => tx.setScriptSig i
        (MotaCoin.combineSignatures ⟨crypto, tx, i, 0⟩ nAdjustedTime scriptPubKey (tx.scriptSigAt i)
          (txv.scriptSigAt i))) (tx.setScriptSig i scriptSig)).scriptSigAt i) := by
  induction variants generalizing signers scriptSig with
  | nil =>
    rw [List.flatMap_nil, List.append_nil, List.map_nil, List.foldl_nil,
      CTransaction.scriptSigAt_setScriptSig hi]
    exact hcollects
  | cons v variants ih =>
    obtain ⟨hv, hvariants⟩ := List.forall_mem_cons.mp hvariants
    have hsame : SameChecks ⟨crypto, tx, i, 0⟩ ⟨crypto, tx.setScriptSig i scriptSig, i, 0⟩ :=
      sameChecks_of_unsigned (tx.unsigned_setScriptSig i scriptSig).symm i 0
    have hback : SameChecks ⟨crypto, tx.setScriptSig i scriptSig, i, 0⟩ ⟨crypto, tx, i, 0⟩ :=
      sameChecks_of_unsigned (tx.unsigned_setScriptSig i scriptSig) i 0
    have hmerged := @AsksFor.combineSignatures ⟨crypto, tx.setScriptSig i scriptSig, i, 0⟩ _ _ _ _ _ _
      _ _ h (hapart.congr hsame) rfl (hcollects.congr hsame) (hv.congr hsame) nAdjustedTime
    have hheld : (fun key => held signers key || held v.1 key) = held (signers ++ v.1) :=
      funext fun key => (hcons signers v.1 key).symm
    rw [hheld] at hmerged
    rw [List.flatMap_cons, ← List.append_assoc, List.map_cons, List.foldl_cons,
      CTransaction.setScriptSig_setScriptSig, CTransaction.scriptSigAt_setScriptSig hi]
    exact ih hvariants (hmerged.congr hback)

section Input

variable (h : AsksFor crypto scriptPubKey script m keyOps)
  (hapart : KeysApart ⟨crypto, tx₀, i, 0⟩ script (keyOps.map Prod.snd))
  (hscript : ∀ script', crypto.getID script' = crypto.getID script → script' = script)
  (hi : (tx₀.vin[i]?).map CTxIn.prevout = some prevout)
include h hapart hscript hi

/-- **What a call makes of an input** is what it and those before it sign. -/
theorem AsksFor.signRawInput (hworks : p.keystore.Works crypto) (htype : p.nHashType ∈ sigHashValues)
    (hprev : p.mapPrevOut prevout = some scriptPubKey) (hunsigned : tx.unsigned = tx₀.unsigned)
    {variants : List (List RawSigner × CTransaction)}
    (hvariants : ∀ v ∈ variants, Collects ⟨crypto, tx₀, i, 0⟩ scriptPubKey script m
      (keyOps.map Prod.snd) (heldBy crypto scriptPubKey script tx₀ i v.1) (v.2.scriptSigAt i)) :
    Collects ⟨crypto, tx₀, i, 0⟩ scriptPubKey script m (keyOps.map Prod.snd)
      (heldBy crypto scriptPubKey script tx₀ i (p :: variants.flatMap Prod.fst))
      ((signRawInput crypto p (variants.map Prod.snd) tx i).2.scriptSigAt i) := by
  have hlen := CTransaction.lt_length_of_prevout hunsigned hi
  have hsame : SameChecks ⟨crypto, tx₀, i, 0⟩ ⟨crypto, tx, i, 0⟩ :=
    sameChecks_of_unsigned hunsigned.symm i 0
  have hback : SameChecks ⟨crypto, tx, i, 0⟩ ⟨crypto, tx₀, i, 0⟩ := sameChecks_of_unsigned hunsigned i 0
  obtain ⟨scriptSig, hsign, hown⟩ := @AsksFor.signSignature crypto scriptPubKey script m keyOps tx i p h
    hworks htype hscript
  have hholds : p.holds crypto scriptPubKey script tx i =
      heldBy crypto scriptPubKey script tx₀ i [p] := by
    funext key
    rw [heldBy, List.any_cons, List.any_nil, Bool.or_false, RawSigner.holds, RawSigner.holds,
      CTransaction.vout_of_unsigned hunsigned]
  rw [hholds] at hown
  unfold MotaCoin.signRawInput
  rw [CTransaction.prevout_of_unsigned hunsigned, hi, Option.bind_some, hprev]
  dsimp only
  have hvout : (tx.setScriptSig i []).vout = tx.vout := rfl
  rw [hvout, hsign]
  refine (h.combine (hapart.congr hsame) hlen p.nAdjustedTime (fun signers signers' key => ?_)
    (fun v hv => (hvariants v hv).congr hsame) hown).congr hback
  exact List.any_append

/-- What has been signed is what the signers hold. -/
theorem SignedBy.collects (hsigned : SignedBy crypto tx₀ signers tx)
    (hsigners : ∀ p ∈ signers, p.keystore.Works crypto ∧ p.nHashType ∈ sigHashValues ∧
      p.mapPrevOut prevout = some scriptPubKey) :
    Collects ⟨crypto, tx₀, i, 0⟩ scriptPubKey script m (keyOps.map Prod.snd)
      (heldBy crypto scriptPubKey script tx₀ i signers) (tx.scriptSigAt i) := by
  induction hsigned with
  | unsigned =>
    have hnil : tx₀.unsigned.scriptSigAt i = [] := by
      obtain ⟨txin, hvin, -⟩ := Option.map_eq_some_iff.mp hi
      simp only [CTransaction.scriptSigAt, CTransaction.unsigned, List.getElem?_map, hvin, Option.map_some]
      rfl
    rw [hnil]
    unfold Collects
    split_ifs
    · exact .inl ⟨rfl, fun _ _ => rfl⟩
    · exact ⟨[], rfl, collected_nil h.form.pos fun _ _ => rfl⟩
  | call p variants r hvariants hcall ih =>
    obtain ⟨hp, hothers⟩ := List.forall_mem_cons.mp hsigners
    have hcollects : ∀ v ∈ variants, Collects ⟨crypto, tx₀, i, 0⟩ scriptPubKey script m
        (keyOps.map Prod.snd) (heldBy crypto scriptPubKey script tx₀ i v.1) (v.2.scriptSigAt i) :=
      fun v hv => ih v hv fun p hp => hothers p (List.mem_flatMap.mpr ⟨v, hv, hp⟩)
    unfold signRawTransaction at hcall
    split at hcall
    · cases hcall
    · next tx txs heq =>
      obtain rfl := Option.some.inj hcall
      have hmem : tx ∈ variants.map Prod.snd := heq ▸ List.mem_cons_self
      obtain ⟨v, hv, rfl⟩ := List.mem_map.mp hmem
      have hunsigned := (hvariants v hv).unsigned_eq
      have hrange : i ∈ List.range v.2.vin.length :=
        List.mem_range.mpr (CTransaction.lt_length_of_prevout hunsigned hi)
      -- the input is signed in one of the rounds of the loop
      obtain ⟨tx', hsame, hvin⟩ := @exists_signRawInputs crypto p (variants.map Prod.snd) v.2 i _ hrange
        List.nodup_range true
      have hround := h.signRawInput hapart hscript hi hp.1 hp.2.1 hp.2.2 (hsame.trans hunsigned) hcollects
      unfold CTransaction.scriptSigAt at hround ⊢
      rwa [hvin]

end Input

/-- **A transaction that is handed on** verifies once enough of the keys have signed, in whatever order
and by whatever merges. -/
theorem SignedBy.accepts_iff_held (hsigned : SignedBy crypto tx₀ signers tx)
    (h : AsksFor crypto scriptPubKey script m keyOps)
    (hapart : KeysApart ⟨crypto, tx₀, i, 0⟩ script (keyOps.map Prod.snd))
    (hscript : ∀ script', crypto.getID script' = crypto.getID script → script' = script)
    (hi : (tx₀.vin[i]?).map CTxIn.prevout = some prevout)
    (hsigners : ∀ p ∈ signers, p.keystore.Works crypto ∧ p.nHashType ∈ sigHashValues ∧
      p.mapPrevOut prevout = some scriptPubKey) :
    Accepts ⟨crypto, tx, i, 0⟩ (tx.scriptSigAt i) scriptPubKey ↔
      m ≤ (keyOps.map Prod.snd).countP (heldBy crypto scriptPubKey script tx₀ i signers) := by
  have hcollects := SignedBy.collects h hapart hscript hi hsigned hsigners
  have hsame : SameChecks ⟨crypto, tx₀, i, 0⟩ ⟨crypto, tx, i, 0⟩ :=
    sameChecks_of_unsigned hsigned.unsigned_eq.symm i 0
  exact hsame.accepts_iff.symm.trans (@AsksFor.accepts_iff ⟨crypto, tx₀, i, 0⟩ _ _ _ _ _ _ h hapart hcollects)

end Handed

/-- A transaction with one input. -/
def oneInputTx : CTransaction := ⟨1, 1000, [⟨⟨1, 0⟩, [], 4294967295⟩], [⟨5000, []⟩], 0⟩

/-- The holder of a key, who knows the script. -/
def signerOf (key : Valtype) : RawSigner where
  keystore := keyStoreOf key bothKeysScript
  mapPrevOut _ := some (setDestination (.scriptID (knownCrypto.getID bothKeysScript)))
  nHashType := SIGHASH_ALL
  nAdjustedTime := 0

/-- What a holder makes of a transaction. -/
def signedOnce (key : Valtype) (tx : CTransaction) : Bool × CTransaction :=
  signRawInputs knownCrypto (signerOf key) [tx] (List.range tx.vin.length) true tx

/-- Two keys sign for the hash of their script, the second first. -/
theorem accepts_signedOnce : Accepts ⟨knownCrypto,
      (signedOnce firstKey (signedOnce secondKey oneInputTx.unsigned).2).2, 0, 0⟩
    ((signedOnce firstKey (signedOnce secondKey oneInputTx.unsigned).2).2.scriptSigAt 0)
    (setDestination (.scriptID (knownCrypto.getID bothKeysScript))) := by
  have hsecond : SignedBy knownCrypto oneInputTx [signerOf secondKey]
      (signedOnce secondKey oneInputTx.unsigned).2 :=
    .call (signerOf secondKey) [([], oneInputTx.unsigned)] _
      (fun v hv => List.mem_singleton.mp hv ▸ .unsigned) rfl
  have hfirst : SignedBy knownCrypto oneInputTx [signerOf firstKey, signerOf secondKey]
      (signedOnce firstKey (signedOnce secondKey oneInputTx.unsigned).2).2 :=
    .call (signerOf firstKey) [([signerOf secondKey], _)] _
      (fun v hv => List.mem_singleton.mp hv ▸ hsecond) rfl
  have hform : MultiSigForm bothKeysScript 2 [(33, firstKey), (33, secondKey)] := by
    refine ⟨by decide, by decide, by decide, ?_, ?_⟩
    · intro key hkey
      rcases List.mem_pair.mp hkey with rfl | rfl <;> exact ⟨by decide, by decide, by decide⟩
    · refine parsesAs_cons_iff.mpr ⟨_, rfl, parsesAs_cons_iff.mpr ⟨_, rfl, parsesAs_cons_iff.mpr ⟨_, rfl,
        parsesAs_cons_iff.mpr ⟨_, rfl, parsesAs_cons_iff.mpr ⟨_, rfl, parsesAs_nil_iff.mpr rfl⟩⟩⟩⟩⟩
  have hasks : AsksFor knownCrypto (setDestination (.scriptID (knownCrypto.getID bothKeysScript)))
      bothKeysScript 2 [(33, firstKey), (33, secondKey)] :=
    ⟨hform, .inr ⟨knownCrypto.hash160 bothKeysScript, by decide +kernel, by decide +kernel, rfl,
      by decide +kernel⟩⟩
  have hapart : KeysApart ⟨knownCrypto, oneInputTx, 0, 0⟩ bothKeysScript [firstKey, secondKey] := by
    have hsig {sig key : Valtype} (h : checkSig ⟨knownCrypto, oneInputTx, 0, 0⟩ sig key bothKeysScript) :
        sig.dropLast = knownSig key := by
      unfold checkSig at h
      split at h
      · cases h
      · dsimp only at h
        rw [if_pos (.inl rfl)] at h
        exact beq_iff_eq.mp h
    have hone : ∀ key ∈ [firstKey, secondKey], ∀ key' ∈ [firstKey, secondKey],
        knownSig key = knownSig key' → key = key' := by
      decide +kernel
    exact ⟨by decide +kernel, fun sig key hkey key' hkey' h h' =>
      hone key hkey key' hkey' ((hsig h).symm.trans (hsig h'))⟩
  refine (hfirst.accepts_iff_held hasks hapart (fun script' => (knownCrypto_getID_iff ?_ script').mp)
    rfl ?_).mpr (by decide +kernel)
  · decide +kernel
  · intro p hp
    rcases List.mem_pair.mp hp with rfl | rfl
    · exact ⟨works_keyStoreOf (.inl rfl) _, List.mem_cons_self, rfl⟩
    · exact ⟨works_keyStoreOf (.inr rfl) _, List.mem_cons_self, rfl⟩

end MotaCoin
