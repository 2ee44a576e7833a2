import Mathlib.Logic.Equiv.List
import Mathlib.Logic.Relation
import Mathlib.Tactic.DeriveCountable
import MotaCoin.Lib.Labelling
import MotaCoin.Primitives

/-!
# What the hashes are taken to do

A hash is injective where the chain logic takes two things with one hash for the same, and it has no
cycle: a transaction does not spend, through others, from itself. Hashes with both properties exist,
with prescribed values on finitely many transactions and headers.

## Main definitions

* `HashInjective`, `SpendsFrom`, `HashAcyclic`
* `labelCrypto`: injective hashes that number given transactions and headers
* `rankedCrypto`: injective hashes without a cycle

## Main results

* `labelCrypto_hashInjective`, `rankedCrypto_hashInjective`, `rankedCrypto_hashAcyclic`
-/

namespace MotaCoin

/-! ## Injective hashes -/

/-- `Hash` is injective on transactions, on headers and on pairs of hashes. -/
structure HashInjective (C : Crypto) : Prop where
  hashTx : Function.Injective C.hashTx
  hashBlock : Function.Injective C.hashBlock
  hashPair : ∀ a b c d, C.hashPair a b = C.hashPair c d → a = c ∧ b = d

instance countableUInt8 : Countable UInt8 :=
  Function.Injective.countable (f := UInt8.toNat) fun _ _ h => UInt8.toNat.inj h

deriving instance Countable for COutPoint
deriving instance Countable for CTxIn
deriving instance Countable for CTxOut
deriving instance Countable for CTransaction
deriving instance Countable for CBlockHeader

/-- Hashes that number the given transactions and headers; every script holds. -/
noncomputable def labelCrypto (txs : List CTransaction) (headers : List CBlockHeader) : Crypto where
  hashTx := Labelling.label txs
  hashBlock := Labelling.label headers
  hashPair := Nat.pair
  stakeHash _ _ _ _ _ _ := 0
  hashSelection _ _ := 0
  hashChecksum _ _ _ _ := 0
  verifySignature _ _ _ := true
  getSigOpCount _ := 0
  getP2SHSigOpCount _ _ := 0
  isStandard _ := true
  areInputsStandard _ _ := true
  checkBlockSignature _ := true
  generateMTRandom _ _ := 0

theorem labelCrypto_hashInjective (txs : List CTransaction) (headers : List CBlockHeader) :
    HashInjective (labelCrypto txs headers) where
  hashTx := Labelling.label_injective txs
  hashBlock := Labelling.label_injective headers
  hashPair _ _ _ _ h := Nat.pair_eq_pair.mp h

/-! ## Hashes without a cycle -/

/-- A transaction with the hash `hash'` spends from the one with the hash `hash`. -/
def SpendsFrom (C : Crypto) (hash hash' : Uint256) : Prop :=
  ∃ tx, C.hashTx tx = hash' ∧ ∃ txin ∈ tx.vin, txin.prevout.hash = hash

/-- No transaction spends, through others, from itself: its hash would have to be among its own
inputs before it is computed. -/
def HashAcyclic (C : Crypto) : Prop := ∀ hash, ¬ Relation.TransGen (SpendsFrom C) hash hash

/-- The largest hash a transaction spends from. -/
def largestPrev (tx : CTransaction) : Nat := (tx.vin.map fun txin => txin.prevout.hash).foldr max 0

theorem le_largestPrev {tx : CTransaction} {txin : CTxIn} (h : txin ∈ tx.vin) :
    txin.prevout.hash ≤ largestPrev tx := by
  unfold largestPrev
  generalize tx.vin = vin at h
  induction vin with
  | nil => cases h
  | cons txin' vin ih =>
    rcases List.mem_cons.mp h with rfl | h
    · simp
    · simp [ih h]

/-- Hashes that number the given transactions and headers, each above what it spends from; every
script holds. -/
noncomputable def rankedCrypto (txs : List CTransaction) (headers : List CBlockHeader) : Crypto :=
  { labelCrypto txs headers with
    hashTx := fun tx => Nat.pair (largestPrev tx) (Labelling.label txs tx) + 1 }

theorem lt_hashTx_rankedCrypto {txs : List CTransaction} {headers : List CBlockHeader}
    {tx : CTransaction} {txin : CTxIn} (h : txin ∈ tx.vin) :
    txin.prevout.hash < (rankedCrypto txs headers).hashTx tx :=
  Nat.lt_succ_of_le ((le_largestPrev h).trans (Nat.left_le_pair _ _))

theorem rankedCrypto_hashInjective (txs : List CTransaction) (headers : List CBlockHeader) :
    HashInjective (rankedCrypto txs headers) where
  hashTx tx tx' h := by
    have hpair := Nat.pair_eq_pair.mp (Nat.succ.inj h)
    exact Labelling.label_injective txs hpair.2
  hashBlock := Labelling.label_injective headers
  hashPair _ _ _ _ h := Nat.pair_eq_pair.mp h

theorem rankedCrypto_hashAcyclic (txs : List CTransaction) (headers : List CBlockHeader) :
    HashAcyclic (rankedCrypto txs headers) := by
  -- along a chain of spends the hashes grow
  have hlt : ∀ {a b}, Relation.TransGen (SpendsFrom (rankedCrypto txs headers)) a b → a < b := by
    intro a b h
    induction h with
    | single h =>
      obtain ⟨tx, rfl, txin, hin, rfl⟩ := h
      exact lt_hashTx_rankedCrypto hin
    | tail _ h ih =>
      obtain ⟨tx, rfl, txin, hin, rfl⟩ := h
      exact ih.trans (lt_hashTx_rankedCrypto hin)
  exact fun hash h => lt_irrefl _ (hlt h)

end MotaCoin
