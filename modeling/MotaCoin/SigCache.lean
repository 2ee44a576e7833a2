import MotaCoin.Interpreter
import MotaCoin.Lib.Memo

/-!
# The cache of valid signatures

`CheckSig` remembers the signatures it found valid, by their hash, and evicts entries at random
once it remembers too many. It answers as if it remembered nothing.

## Main definitions

* `SigData`: `sigdata_type`, in the order of its `operator<`
* `CSignatureCache`, `CSignatureCache.get`, `CSignatureCache.set`
* `CheckSigCall`, `CheckSigCall.checkSig`: a call of `CheckSig`, with the cache

## Main results

* `CSignatureCache.Sound.set`: what is remembered was found valid, whatever is evicted
* `answers_checkSig`: no answer depends on the cache
-/

namespace MotaCoin

open Wire

/-- `sigdata_type`. -/
structure SigData where
  /-- The signature hash. -/
  hash : Uint256
  /-- The signature, its hash type removed. -/
  vchSig : Valtype
  /-- The public key. -/
  pubKey : Valtype
  deriving DecidableEq

/-- `operator<` of the tuple. -/
def SigData.Less (a b : SigData) : Prop :=
  a.hash < b.hash ∨ a.hash = b.hash ∧
    (a.vchSig < b.vchSig ∨ a.vchSig = b.vchSig ∧ a.pubKey < b.pubKey)

instance (a b : SigData) : Decidable (a.Less b) := inferInstanceAs (Decidable (_ ∨ _))

/-- `CSignatureCache`. -/
structure CSignatureCache where
  /-- `setValid`, in its order. -/
  setValid : List SigData

namespace CSignatureCache

/-- The cache when the node starts. -/
def empty : CSignatureCache := ⟨[]⟩

/-- `Get`. -/
def get (cache : CSignatureCache) (k : SigData) : Bool := decide (k ∈ cache.setValid)

/-- `insert` of the set. -/
def insertKey (k : SigData) : List SigData → List SigData
  | [] => [k]
  | a :: setValid =>
    if a.Less k then a :: insertKey k setValid
    else if k.Less a then k :: a :: setValid
    else a :: setValid

/-- The position of the entry that is evicted: the lower bound of the random hash, or, when there
is none, the first. -/
def evicted (randomHash : Uint256) (setValid : List SigData) : Nat :=
  (setValid.findIdx? fun a => !decide (a.Less ⟨randomHash, [], []⟩)).getD 0

/-- The loop of `Set`: entries are evicted while there are more than `nMaxCacheSize`. The random
hashes are numbered from `i` on. -/
def evict (nMaxCacheSize : Int) (getRandHash : Nat → Uint256) (i : Nat)
    (setValid : List SigData) : List SigData :=
  if nMaxCacheSize < setValid.length ∧ evicted (getRandHash i) setValid < setValid.length then
    evict nMaxCacheSize getRandHash (i + 1)
      (setValid.eraseIdx (evicted (getRandHash i) setValid))
  else setValid
termination_by setValid.length
decreasing_by
  rename_i h
  rw [List.length_eraseIdx_of_lt h.2]
  omega

/-- `Set`. -/
def set (cache : CSignatureCache) (nMaxCacheSize : Int) (getRandHash : Nat → Uint256)
    (k : SigData) : CSignatureCache :=
  if nMaxCacheSize ≤ 0 then cache
  else ⟨insertKey k (evict nMaxCacheSize getRandHash 0 cache.setValid)⟩

/-! ## What is in the cache -/

variable {cache : CSignatureCache} {nMaxCacheSize : Int} {getRandHash : Nat → Uint256}
  {k a : SigData} {setValid : List SigData}

theorem sublist_evict (i : Nat) (setValid : List SigData) :
    List.Sublist (evict nMaxCacheSize getRandHash i setValid) setValid := by
  fun_induction evict nMaxCacheSize getRandHash i setValid with
  | case1 i setValid hmore ih => exact ih.trans (List.eraseIdx_sublist _ _)
  | case2 i setValid hdone => exact List.Sublist.refl _

theorem mem_insertKey (h : a ∈ insertKey k setValid) : a = k ∨ a ∈ setValid := by
  induction setValid with
  | nil => exact .inl (List.mem_singleton.mp h)
  | cons b setValid ih =>
    rw [insertKey] at h
    split_ifs at h
    · rcases List.mem_cons.mp h with rfl | h
      · exact .inr List.mem_cons_self
      · exact (ih h).imp_right (List.mem_cons_of_mem _)
    · exact List.mem_cons.mp h
    · exact .inr h

/-- What is in the cache is valid. -/
def Sound (crypto : ScriptCrypto) (cache : CSignatureCache) : Prop :=
  ∀ k ∈ cache.setValid, crypto.verify k.pubKey k.hash k.vchSig

variable {crypto : ScriptCrypto}

theorem sound_empty : empty.Sound crypto := nofun

/-- **What is remembered was found valid**, whatever is evicted. -/
theorem Sound.set (h : cache.Sound crypto) (hk : crypto.verify k.pubKey k.hash k.vchSig)
    (nMaxCacheSize : Int) (getRandHash : Nat → Uint256) :
    (cache.set nMaxCacheSize getRandHash k).Sound crypto := by
  unfold CSignatureCache.set
  split_ifs
  · exact h
  · intro a ha
    rcases mem_insertKey ha with rfl | ha
    · exact hk
    · exact h a ((sublist_evict 0 cache.setValid).subset ha)

end CSignatureCache

/-! ## Calls of CheckSig -/

/-- A call of `CheckSig`: its arguments, the cache size that is configured, and the random hashes
that `Set` draws. -/
structure CheckSigCall where
  /-- `vchSig`. -/
  vchSig : Valtype
  /-- `vchPubKey`. -/
  vchPubKey : Valtype
  /-- `scriptCode`. -/
  scriptCode : CScript
  /-- `txTo`. -/
  txTo : CTransaction
  /-- `nIn`. -/
  nIn : Nat
  /-- `nHashType`. -/
  nHashType : UInt32
  /-- `-maxsigcachesize`. -/
  nMaxCacheSize : Int
  /-- `GetRandHash`, time after time. -/
  getRandHash : Nat → Uint256

/-- The arguments that do not come from the stack. -/
def CheckSigCall.context (crypto : ScriptCrypto) (call : CheckSigCall) : SigContext :=
  ⟨crypto, call.txTo, call.nIn, call.nHashType⟩

/-- `CheckSig`, with its cache. -/
def CheckSigCall.checkSig (crypto : ScriptCrypto) (cache : CSignatureCache) (call : CheckSigCall) :
    Bool × CSignatureCache :=
  match call.vchSig.getLast? with
  | none => (false, cache)
  | some back =>
    let nHashType := UInt32.ofNat back.toNat
    if call.nHashType = 0 ∨ call.nHashType = nHashType then
      let vchSig := call.vchSig.dropLast
      let sighash := signatureHash (fun ss => ofLE (crypto.hash256 ss)) call.scriptCode call.txTo
        call.nIn nHashType
      if cache.get ⟨sighash, vchSig, call.vchPubKey⟩ then (true, cache)
      else if crypto.verify call.vchPubKey sighash vchSig then
        (true, cache.set call.nMaxCacheSize call.getRandHash ⟨sighash, vchSig, call.vchPubKey⟩)
      else (false, cache)
    else (false, cache)

section Calls

open CSignatureCache

variable {crypto : ScriptCrypto} {cache : CSignatureCache}

/-- One call: the answer is the one without a cache, and the cache stays sound. -/
theorem CheckSigCall.checkSig_spec (h : cache.Sound crypto) (call : CheckSigCall) :
    (call.checkSig crypto cache).1 =
        MotaCoin.checkSig (call.context crypto) call.vchSig call.vchPubKey call.scriptCode ∧
      (call.checkSig crypto cache).2.Sound crypto := by
  unfold CheckSigCall.checkSig MotaCoin.checkSig CheckSigCall.context
  cases call.vchSig.getLast? with
  | none => exact ⟨rfl, h⟩
  | some back =>
    dsimp only
    split_ifs with htype hget hverify
    · -- a hit is a signature that was verified when it was put into the cache
      exact ⟨(h _ (of_decide_eq_true hget)).symm, h⟩
    · exact ⟨hverify.symm, h.set hverify _ _⟩
    · exact ⟨(Bool.eq_false_of_not_eq_true hverify).symm, h⟩
    · exact ⟨rfl, h⟩

/-- **The cache is transparent.** Whatever calls are made one after the other, with whatever cache
sizes and evictions, each answer is the one from an empty cache, and the one without a cache. -/
theorem answers_checkSig (crypto : ScriptCrypto) (calls : List CheckSigCall) :
    Memo.answers (fun cache call => CheckSigCall.checkSig crypto cache call) .empty calls =
        calls.map (fun call => (call.checkSig crypto .empty).1) ∧
      Memo.answers (fun cache call => CheckSigCall.checkSig crypto cache call) .empty calls =
        calls.map fun call =>
          checkSig (call.context crypto) call.vchSig call.vchPubKey call.scriptCode := by
  have hall := Memo.answers_eq_map
    (fun cache call (h : Sound crypto cache) => (CheckSigCall.checkSig_spec h call).1)
    (fun cache call h => (CheckSigCall.checkSig_spec h call).2) sound_empty calls
  refine ⟨hall.trans (List.map_congr_left fun call _ => ?_), hall⟩
  exact (CheckSigCall.checkSig_spec sound_empty call).1.symm

end Calls

end MotaCoin
