import MotaCoin.Hashes
import MotaCoin.Script
import MotaCoin.Serialize

/-!
# What a signature commits to

`SignatureHash` copies the transaction, blanks the parts that the hash type leaves open, puts the
script code where the signature would be and hashes what is left together with the hash type. With
an injective hash, two calls with one result agree in everything that was not blanked.

## Main definitions

* `SIGHASH_ALL`, `SIGHASH_NONE`, `SIGHASH_SINGLE`, `SIGHASH_ANYONECANPAY`
* `signatureTx`: the copy that is hashed, if the hash type allows one
* `signatureHash`: `SignatureHash`

## Main results

* `signatureTx_inj`: calls with one result hashed one copy and one hash type
* `signatureHash_commits`: what they agree in
-/

namespace MotaCoin

open Wire

/-- `SIGHASH_ALL`. -/
def SIGHASH_ALL : UInt32 := 1

/-- `SIGHASH_NONE`. -/
def SIGHASH_NONE : UInt32 := 2

/-- `SIGHASH_SINGLE`. -/
def SIGHASH_SINGLE : UInt32 := 3

/-- `SIGHASH_ANYONECANPAY`. -/
def SIGHASH_ANYONECANPAY : UInt32 := 0x80

/-- `CTxOut::SetNull`. -/
def CTxOut.null : CTxOut := ⟨-1, []⟩

/-! ## The copy that is hashed -/

/-- The inputs without their signatures, the script code in place of the one of `nIn`. -/
def blankScripts (scriptCode : CScript) (nIn : Nat) (vin : List CTxIn) : List CTxIn :=
  vin.mapIdx fun i txin => { txin with scriptSig := if i = nIn then scriptCode else [] }

/-- The inputs with the sequence numbers of all but `nIn` set to zero. -/
def blankSequences (nIn : Nat) (vin : List CTxIn) : List CTxIn :=
  vin.mapIdx fun i txin => if i = nIn then txin else { txin with nSequence := 0 }

/-- The inputs `SignatureHash` leaves of `vin`. -/
def signatureInputs (scriptCode : CScript) (nIn : Nat) (nHashType : UInt32) (vin : List CTxIn) :
    List CTxIn :=
  let vin' := blankScripts scriptCode nIn vin
  let vin'' := if nHashType &&& 0x1f = SIGHASH_NONE ∨ nHashType &&& 0x1f = SIGHASH_SINGLE then
    blankSequences nIn vin' else vin'
  if nHashType &&& SIGHASH_ANYONECANPAY ≠ 0 then (vin''[nIn]?).toList else vin''

/-- The outputs `SignatureHash` leaves of `vout`; none when the hash type asks for an output that
is not there. -/
def signatureOutputs (nIn : Nat) (nHashType : UInt32) (vout : List CTxOut) :
    Option (List CTxOut) :=
  if nHashType &&& 0x1f = SIGHASH_NONE then some []
  else if nHashType &&& 0x1f = SIGHASH_SINGLE then
    if vout.length ≤ nIn then none
    else some ((vout.take (nIn + 1)).mapIdx fun i txout => if i < nIn then CTxOut.null else txout)
  else some vout

/-- The copy of the transaction that `SignatureHash` hashes. -/
def signatureTx (scriptCode : CScript) (txTo : CTransaction) (nIn : Nat) (nHashType : UInt32) :
    Option CTransaction :=
  (signatureOutputs nIn nHashType txTo.vout).map fun vout =>
    { txTo with
      vin := signatureInputs (findAndDelete scriptCode (ofOpcode OP_CODESEPARATOR)) nIn nHashType
        txTo.vin
      vout := vout }

/-- `SignatureHash`, with `Hash` as a parameter. -/
def signatureHash (hash : List UInt8 → Uint256) (scriptCode : CScript) (txTo : CTransaction)
    (nIn : Nat) (nHashType : UInt32) : Uint256 :=
  if txTo.vin.length ≤ nIn then 1
  else
    match signatureTx scriptCode txTo nIn nHashType with
    | none => 1
    | some txTmp => hash (txTmp.serialize ++ leBytes 4 nHashType.toNat)

/-! ## The copy can be read back -/

section Copy

variable {scriptCode : CScript} {txTo txTmp : CTransaction} {nIn nMax : Nat} {nHashType : UInt32}

theorem mem_blankScripts {vin : List CTxIn} {txin : CTxIn}
    (h : txin ∈ blankScripts scriptCode nIn vin) :
    ∃ txin₀ ∈ vin, txin.prevout = txin₀.prevout ∧ txin.nSequence = txin₀.nSequence ∧
      (txin.scriptSig = scriptCode ∨ txin.scriptSig = []) := by
  obtain ⟨i, hi, rfl⟩ := List.mem_mapIdx.mp h
  refine ⟨vin[i], List.getElem_mem hi, rfl, rfl, ?_⟩
  by_cases hin : i = nIn
  · exact .inl (if_pos hin)
  · exact .inr (if_neg hin)

theorem mem_blankSequences {vin : List CTxIn} {txin : CTxIn} (h : txin ∈ blankSequences nIn vin) :
    ∃ txin₀ ∈ vin, txin.prevout = txin₀.prevout ∧ txin.scriptSig = txin₀.scriptSig ∧
      (txin.nSequence = txin₀.nSequence ∨ txin.nSequence = 0) := by
  obtain ⟨i, hi, rfl⟩ := List.mem_mapIdx.mp h
  refine ⟨vin[i], List.getElem_mem hi, ?_⟩
  by_cases hin : i = nIn
  · rw [if_pos hin]
    exact ⟨rfl, rfl, .inl rfl⟩
  · rw [if_neg hin]
    exact ⟨rfl, rfl, .inr rfl⟩

/-- An input of the copy comes from one of the transaction. -/
theorem mem_signatureInputs {vin : List CTxIn} {txin : CTxIn}
    (h : txin ∈ signatureInputs scriptCode nIn nHashType vin) :
    ∃ txin₀ ∈ vin, txin.prevout = txin₀.prevout ∧
      (txin.nSequence = txin₀.nSequence ∨ txin.nSequence = 0) ∧
      (txin.scriptSig = scriptCode ∨ txin.scriptSig = []) := by
  -- with or without the sequence numbers blanked
  have hseq : ∀ {txin}, txin ∈ (if nHashType &&& 0x1f = SIGHASH_NONE ∨
      nHashType &&& 0x1f = SIGHASH_SINGLE then
        blankSequences nIn (blankScripts scriptCode nIn vin)
      else blankScripts scriptCode nIn vin) →
      ∃ txin₀ ∈ vin, txin.prevout = txin₀.prevout ∧
        (txin.nSequence = txin₀.nSequence ∨ txin.nSequence = 0) ∧
        (txin.scriptSig = scriptCode ∨ txin.scriptSig = []) := by
    intro txin htxin
    split at htxin
    · obtain ⟨txin₁, hmem₁, hprev₁, hscript₁, hseq₁⟩ := mem_blankSequences htxin
      obtain ⟨txin₀, hmem₀, hprev₀, hseq₀, hscript₀⟩ := mem_blankScripts hmem₁
      exact ⟨txin₀, hmem₀, hprev₁.trans hprev₀, hseq₀ ▸ hseq₁, hscript₁ ▸ hscript₀⟩
    · obtain ⟨txin₀, hmem₀, hprev₀, hseq₀, hscript₀⟩ := mem_blankScripts htxin
      exact ⟨txin₀, hmem₀, hprev₀, .inl hseq₀, hscript₀⟩
  simp only [signatureInputs] at h
  split at h
  · exact hseq (List.mem_of_getElem? (Option.mem_toList.mp h))
  · exact hseq h

theorem length_signatureInputs_le (scriptCode : CScript) (nIn : Nat) (nHashType : UInt32)
    {vin : List CTxIn} (hin : nIn < vin.length) :
    (signatureInputs scriptCode nIn nHashType vin).length ≤ vin.length := by
  simp only [signatureInputs]
  split
  · refine le_trans ?_ (Nat.one_le_of_lt hin)
    exact Option.length_toList_le
  · split <;> simp [blankSequences, blankScripts]

/-- An output of the copy is one of the transaction or null. -/
theorem mem_signatureOutputs {vout vout' : List CTxOut} {txout : CTxOut}
    (h : signatureOutputs nIn nHashType vout = some vout') (hmem : txout ∈ vout') :
    txout ∈ vout ∨ txout = CTxOut.null := by
  unfold signatureOutputs at h
  split_ifs at h
  · obtain rfl := Option.some.inj h
    cases hmem
  · obtain rfl := Option.some.inj h
    obtain ⟨i, hi, rfl⟩ := List.mem_mapIdx.mp hmem
    split
    · exact .inr rfl
    · exact .inl (List.mem_of_mem_take (List.getElem_mem hi))
  · obtain rfl := Option.some.inj h
    exact .inl hmem

theorem length_signatureOutputs_le {vout vout' : List CTxOut}
    (h : signatureOutputs nIn nHashType vout = some vout') : vout'.length ≤ vout.length := by
  unfold signatureOutputs at h
  split_ifs at h
  · obtain rfl := Option.some.inj h
    simp
  · obtain rfl := Option.some.inj h
    simp
  · obtain rfl := Option.some.inj h
    exact le_rfl

theorem signatureTx_fits (hfits : txTo.Fits)
    (h : signatureTx scriptCode txTo nIn nHashType = some txTmp) : txTmp.Fits := by
  obtain ⟨vout, hvout, rfl⟩ := Option.map_eq_some_iff.mp h
  refine ⟨hfits.nVersion, hfits.nTime, fun txin hin => ?_, fun txout hout => ?_, hfits.nLockTime⟩
  · obtain ⟨txin₀, hmem, hprev, hseq, -⟩ := mem_signatureInputs hin
    obtain ⟨hhash, hn, hsequence⟩ := hfits.vin txin₀ hmem
    refine ⟨hprev ▸ hhash, hprev ▸ hn, ?_⟩
    rcases hseq with hseq | hseq
    · exact hseq ▸ hsequence
    · rw [hseq]
      decide
  · rcases mem_signatureOutputs hvout hout with hmem | rfl
    · exact hfits.vout txout hmem
    · decide

theorem signatureTx_sized (hsized : txTo.Sized nMax) (hcode : scriptCode.length ≤ nMax)
    (hin : nIn < txTo.vin.length) (h : signatureTx scriptCode txTo nIn nHashType = some txTmp) :
    txTmp.Sized nMax := by
  obtain ⟨vout, hvout, rfl⟩ := Option.map_eq_some_iff.mp h
  refine ⟨(length_signatureInputs_le _ _ _ hin).trans hsized.vin,
    (length_signatureOutputs_le hvout).trans hsized.vout, fun txin hmem => ?_, fun txout hmem => ?_⟩
  · obtain ⟨-, -, -, -, hscript | hscript⟩ := mem_signatureInputs hmem
    · rw [hscript]
      exact (findAndDelete_length_le _ _).trans hcode
    · simp [hscript]
  · rcases mem_signatureOutputs hvout hmem with hmem | rfl
    · exact hsized.scriptPubKey txout hmem
    · simp [CTxOut.null]

/-- There is a copy to hash when the output a `SIGHASH_SINGLE` asks for is there. -/
theorem exists_signatureTx (scriptCode : CScript)
    (hsingle : nHashType &&& 0x1f = SIGHASH_SINGLE → nIn < txTo.vout.length) :
    ∃ txTmp, signatureTx scriptCode txTo nIn nHashType = some txTmp := by
  unfold signatureTx signatureOutputs
  split
  · exact ⟨_, rfl⟩
  · split
    · next hs =>
      rw [if_neg (by have := hsingle hs; omega)]
      exact ⟨_, rfl⟩
    · exact ⟨_, rfl⟩

end Copy

/-! ## What the copy keeps -/

section Keeps

variable {scriptCode scriptCode' : CScript} {vin vin' : List CTxIn} {nIn nIn' : Nat}

theorem getElem?_blankScripts (scriptCode : CScript) (nIn i : Nat) (vin : List CTxIn) :
    (blankScripts scriptCode nIn vin)[i]? = vin[i]?.map fun txin =>
      { txin with scriptSig := if i = nIn then scriptCode else [] } := by
  simp [blankScripts, List.getElem?_mapIdx]

theorem map_prevout_blankScripts (scriptCode : CScript) (nIn : Nat) (vin : List CTxIn) :
    (blankScripts scriptCode nIn vin).map CTxIn.prevout = vin.map CTxIn.prevout := by
  refine List.ext_getElem? fun i => ?_
  simp only [List.getElem?_map, getElem?_blankScripts, Option.map_map]
  rfl

theorem map_nSequence_blankScripts (scriptCode : CScript) (nIn : Nat) (vin : List CTxIn) :
    (blankScripts scriptCode nIn vin).map CTxIn.nSequence = vin.map CTxIn.nSequence := by
  refine List.ext_getElem? fun i => ?_
  simp only [List.getElem?_map, getElem?_blankScripts, Option.map_map]
  rfl

/-- The script code stands at its input, and only there. -/
theorem scriptCode_of_blankScripts_eq (hin : nIn < vin.length)
    (h : blankScripts scriptCode nIn vin = blankScripts scriptCode' nIn' vin') :
    scriptCode = if nIn = nIn' then scriptCode' else [] := by
  have hlen : nIn < vin'.length := by
    have := congrArg List.length h
    simp only [blankScripts, List.length_mapIdx] at this
    omega
  have hat := congrArg (fun l => l[nIn]?.map CTxIn.scriptSig) h
  simp only [getElem?_blankScripts, List.getElem?_eq_getElem hin, List.getElem?_eq_getElem hlen,
    Option.map_some, if_true] at hat
  exact Option.some.inj hat

/-- With `SIGHASH_ANYONECANPAY` the copy has the signed input alone. -/
theorem signatureInputs_anyoneCanPay {nHashType : UInt32}
    (htype : nHashType &&& SIGHASH_ANYONECANPAY ≠ 0) (hin : nIn < vin.length) :
    signatureInputs scriptCode nIn nHashType vin = [{ vin[nIn] with scriptSig := scriptCode }] := by
  have hscripts : (blankScripts scriptCode nIn vin)[nIn]? =
      some { vin[nIn] with scriptSig := scriptCode } := by
    rw [getElem?_blankScripts, List.getElem?_eq_getElem hin]
    simp
  have hsequences : (blankSequences nIn (blankScripts scriptCode nIn vin))[nIn]? =
      some { vin[nIn] with scriptSig := scriptCode } := by
    simp [blankSequences, List.getElem?_mapIdx, hscripts]
  simp only [signatureInputs, if_pos htype]
  split
  · rw [hsequences]
    rfl
  · rw [hscripts]
    rfl

theorem signatureInputs_all : signatureInputs scriptCode nIn SIGHASH_ALL vin =
    blankScripts scriptCode nIn vin := rfl

theorem signatureOutputs_all (nIn : Nat) (vout : List CTxOut) :
    signatureOutputs nIn SIGHASH_ALL vout = some vout := rfl

end Keeps

/-! ## Two calls with one result -/

/-- **A call of `SignatureHash`** for an input that is there, and for an output that is there when
the hash type asks for one, on values of the machine types. -/
structure SigCall where
  scriptCode : CScript
  txTo : CTransaction
  nIn : Nat
  nHashType : UInt32
  fits : txTo.Fits
  sized : txTo.Sized (2 ^ 64 - 1)
  code_sized : scriptCode.length ≤ 2 ^ 64 - 1
  nIn_lt : nIn < txTo.vin.length
  single : nHashType &&& 0x1f = SIGHASH_SINGLE → nIn < txTo.vout.length

namespace SigCall

variable {c c' : SigCall} {hash : List UInt8 → Uint256}

/-- The result of a call. -/
def result (hash : List UInt8 → Uint256) (c : SigCall) : Uint256 :=
  signatureHash hash c.scriptCode c.txTo c.nIn c.nHashType

/-- The script code without its `OP_CODESEPARATOR`s. -/
def code (c : SigCall) : CScript := findAndDelete c.scriptCode (ofOpcode OP_CODESEPARATOR)

/-- The input that is signed. -/
def input (c : SigCall) : CTxIn := c.txTo.vin.get ⟨c.nIn, c.nIn_lt⟩

/-- **Calls with one result hashed one copy** and one hash type. -/
theorem signatureTx_inj (hinj : Function.Injective hash) (h : c.result hash = c'.result hash) :
    signatureTx c.scriptCode c.txTo c.nIn c.nHashType =
        signatureTx c'.scriptCode c'.txTo c'.nIn c'.nHashType ∧ c.nHashType = c'.nHashType := by
  obtain ⟨txTmp, htx⟩ := exists_signatureTx c.scriptCode c.single
  obtain ⟨txTmp', htx'⟩ := exists_signatureTx c'.scriptCode c'.single
  simp only [result, signatureHash, htx, htx', if_neg (Nat.not_le.mpr c.nIn_lt),
    if_neg (Nat.not_le.mpr c'.nIn_lt)] at h
  have hmax : 2 ^ 64 - 1 < 2 ^ 64 := by decide
  have hread := CTransaction.reads_unserialize hmax (signatureTx_fits c.fits htx)
    (signatureTx_sized c.sized c.code_sized c.nIn_lt htx)
  have hread' := CTransaction.reads_unserialize hmax (signatureTx_fits c'.fits htx')
    (signatureTx_sized c'.sized c'.code_sized c'.nIn_lt htx')
  obtain ⟨rfl, htype⟩ := hread.append_inj hread' (hinj h)
  refine ⟨htx.trans htx'.symm, UInt32.toNat.inj ?_⟩
  have hword : ∀ t : UInt32, ofLE (leBytes 4 t.toNat) = t.toNat := fun t => by
    rw [ofLE_leBytes]
    exact Nat.mod_eq_of_lt t.toNat_lt
  rw [← hword c.nHashType, htype, hword]

/-- What a call with `SIGHASH_ALL` commits to. -/
structure SameAll (c c' : SigCall) : Prop where
  nVersion : c.txTo.nVersion = c'.txTo.nVersion
  nTime : c.txTo.nTime = c'.txTo.nTime
  nLockTime : c.txTo.nLockTime = c'.txTo.nLockTime
  prevouts : c.txTo.vin.map CTxIn.prevout = c'.txTo.vin.map CTxIn.prevout
  sequences : c.txTo.vin.map CTxIn.nSequence = c'.txTo.vin.map CTxIn.nSequence
  vout : c.txTo.vout = c'.txTo.vout
  code : c.code = c'.code
  nIn : c.code ≠ [] → c.nIn = c'.nIn

/-- What a call with `SIGHASH_ANYONECANPAY` commits to of its input. -/
structure SameInput (c c' : SigCall) : Prop where
  prevout : c.input.prevout = c'.input.prevout
  nSequence : c.input.nSequence = c'.input.nSequence
  code : c.code = c'.code

theorem sameAll_of_signatureTx_eq (htype : c.nHashType = SIGHASH_ALL)
    (htype' : c'.nHashType = SIGHASH_ALL)
    (h : signatureTx c.scriptCode c.txTo c.nIn c.nHashType =
      signatureTx c'.scriptCode c'.txTo c'.nIn c'.nHashType) : SameAll c c' := by
  simp only [signatureTx, htype, htype', signatureOutputs_all, signatureInputs_all, Option.map_some,
    Option.some.injEq, CTransaction.mk.injEq] at h
  obtain ⟨hversion, htime, hvin, hvout, hlock⟩ := h
  have hcode := scriptCode_of_blankScripts_eq c.nIn_lt hvin
  have hcode' := scriptCode_of_blankScripts_eq c'.nIn_lt hvin.symm
  refine ⟨hversion, htime, hlock, ?_, ?_, hvout, ?_, fun hne => ?_⟩
  · have := congrArg (List.map CTxIn.prevout) hvin
    rwa [map_prevout_blankScripts, map_prevout_blankScripts] at this
  · have := congrArg (List.map CTxIn.nSequence) hvin
    rwa [map_nSequence_blankScripts, map_nSequence_blankScripts] at this
  · by_cases hn : c.nIn = c'.nIn
    · rwa [if_pos hn] at hcode
    · rw [if_neg hn] at hcode
      rw [if_neg (Ne.symm hn)] at hcode'
      exact hcode.trans hcode'.symm
  · by_contra hn
    exact hne (hcode.trans (if_neg hn))

theorem sameInput_of_signatureTx_eq (htype : c.nHashType &&& SIGHASH_ANYONECANPAY ≠ 0)
    (htype' : c'.nHashType = c.nHashType)
    (h : signatureTx c.scriptCode c.txTo c.nIn c.nHashType =
      signatureTx c'.scriptCode c'.txTo c'.nIn c'.nHashType) : SameInput c c' := by
  obtain ⟨txTmp, htx⟩ := exists_signatureTx c.scriptCode c.single
  have htx' := h.symm.trans htx
  obtain ⟨vout, -, rfl⟩ := Option.map_eq_some_iff.mp htx
  obtain ⟨vout', -, heq⟩ := Option.map_eq_some_iff.mp htx'
  have hvin := congrArg CTransaction.vin heq
  simp only [htype', signatureInputs_anyoneCanPay htype c.nIn_lt,
    signatureInputs_anyoneCanPay htype c'.nIn_lt, List.cons.injEq, CTxIn.mk.injEq, and_true] at hvin
  exact ⟨hvin.1.symm, hvin.2.2.symm, hvin.2.1.symm⟩

/-- **What a signature commits to**: two calls of `SignatureHash` with one result have one hash
type. With `SIGHASH_ALL` they agree in the version, the times, the outpoints and sequence numbers
of all inputs, all outputs and the script code without its separators, and in the input when that
code is not empty; with `SIGHASH_ANYONECANPAY` they agree in the outpoint and the sequence number
of the signed input and in that code. -/
theorem signatureHash_commits (hinj : Function.Injective hash)
    (h : c.result hash = c'.result hash) :
    c.nHashType = c'.nHashType ∧ (c.nHashType = SIGHASH_ALL → SameAll c c') ∧
      (c.nHashType &&& SIGHASH_ANYONECANPAY ≠ 0 → SameInput c c') := by
  obtain ⟨htx, htype⟩ := signatureTx_inj hinj h
  exact ⟨htype, fun hall => sameAll_of_signatureTx_eq hall (htype ▸ hall) htx,
    fun hany => sameInput_of_signatureTx_eq hany htype.symm htx⟩

/-- A call for the only input of a transaction. -/
def sample (scriptCode : CScript) (hcode : scriptCode.length ≤ 2 ^ 64 - 1) : SigCall where
  scriptCode := scriptCode
  txTo := ⟨1, 0, [⟨⟨5, 0⟩, [], 4294967295⟩], [⟨7, [0x51]⟩], 0⟩
  nIn := 0
  nHashType := SIGHASH_ALL
  fits := ⟨by decide, by decide, by
    intro txin htxin
    obtain rfl := List.mem_singleton.mp htxin
    exact ⟨by decide, by decide, by decide⟩, by simp [Int64.InRange], by decide⟩
  sized := ⟨by simp, by simp, by simp, by simp⟩
  code_sized := hcode
  nIn_lt := by decide
  single h := absurd h (by decide)

/-- A separator in the script code makes no difference to the result. -/
theorem signatureHash_commits_separator :
    (sample [0xab, 0x51] (by decide)).result (Labelling.label []) =
        (sample [0x51] (by decide)).result (Labelling.label []) ∧
      SameAll (sample [0xab, 0x51] (by decide)) (sample [0x51] (by decide)) := by
  have hcode : findAndDelete [0xab, 0x51] (ofOpcode OP_CODESEPARATOR) =
      findAndDelete [0x51] (ofOpcode OP_CODESEPARATOR) := by decide +kernel
  have hresult : (sample [0xab, 0x51] (by decide)).result (Labelling.label []) =
      (sample [0x51] (by decide)).result (Labelling.label []) := by
    simp only [result, signatureHash, signatureTx, sample, hcode]
    rfl
  exact ⟨hresult, (signatureHash_commits (Labelling.label_injective []) hresult).2.1 rfl⟩

end SigCall

end MotaCoin
