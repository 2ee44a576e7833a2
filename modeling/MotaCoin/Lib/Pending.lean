import Mathlib.Data.Set.Lattice
import Mathlib.Logic.Relation

/-!
# Pending entries beside a ledger

Entries have an identity and outputs, and spend outputs of other entries. Some of them make up a
ledger, in which no output is spent twice; others are pending. The pending entries are backed when
each output they spend is an unspent output of the ledger, or an output of a pending entry. This
file says when that survives a change of the ledger: entries are taken off and partly become
pending, others are put in their place with the conflicts of these removed, and more are put on top
without such care. Nothing here is about one program.

## Main definitions

* `Shape`: what is known of entries
* `Sound`: a set of entries in which spends resolve, and no output is spent twice
* `Backed`: pending entries whose spends are backed by the ledger or by each other
* `Conflicted`: entries that spend an output that new entries spend, or depend on such an entry
* `kept`: what is left of the pending entries

## Main results

* `backed_kept_iff`: when the pending entries that are left are backed
-/

namespace Pending

/-- Entries of type `T`, with an identity in `I`, name outputs of entries by an `O`. -/
structure Shape (T I O : Type) where
  /-- The identity of an entry. -/
  id : T → I
  /-- The number of outputs of an entry. -/
  outs : T → Nat
  /-- The outputs that an entry spends. -/
  spends : T → List O
  /-- The entry that an output belongs to. -/
  source : O → I
  /-- The position of an output among those of its entry. -/
  position : O → Nat

variable {T I O : Type} (A : Shape T I O)

namespace Shape

/-- The output `o` is one of the entry `y`. -/
def HasOutput (y : T) (o : O) : Prop := A.id y = A.source o ∧ A.position o < A.outs y

/-- Some entry of `S` has the output `o`. -/
def Provides (S : Set T) (o : O) : Prop := ∃ y ∈ S, A.HasOutput y o

/-- Some entry of `S` spends the output `o`. -/
def Spent (S : Set T) (o : O) : Prop := ∃ x ∈ S, o ∈ A.spends x

/-- What the entries of `L` spend are outputs of entries of `L`, each spent once. -/
structure Sound (L : Set T) : Prop where
  resolves : ∀ x ∈ L, ∀ o ∈ A.spends x, A.Provides L o
  once : ∀ x ∈ L, ∀ y ∈ L, ∀ o ∈ A.spends x, o ∈ A.spends y → x = y

/-- **The pending entries `P` are backed**: what they spend is an unspent output of the ledger `L`
or an output of a pending entry. -/
def Backed (L P : Set T) : Prop :=
  ∀ x ∈ P, ∀ o ∈ A.spends x, (A.Provides L o ∧ ¬ A.Spent L o) ∨ A.Provides P o

/-- The entry `y` of `S` spends an output of the entry `x` of `S`. -/
def Depends (S : Set T) (x y : T) : Prop := x ∈ S ∧ y ∈ S ∧ ∃ o ∈ A.spends y, A.HasOutput x o

/-- Two entries spend a common output. -/
def Share (x y : T) : Prop := ∃ o ∈ A.spends x, o ∈ A.spends y

/-- An entry of `S` that is not one of `N`, but spends an output that an entry of `N` spends, or
depends on such an entry. -/
def Conflicted (S N : Set T) (x : T) : Prop :=
  ∃ z ∈ S, z ∉ N ∧ (∃ c ∈ N, A.Share z c) ∧ Relation.ReflTransGen (A.Depends S) z x

/-- What is left of the pending entries `S` when `N` enters the ledger with its conflicts removed,
and then `E` without. -/
def kept (S N E : Set T) : Set T := {x | x ∈ S ∧ x ∉ N ∧ x ∉ E ∧ ¬ A.Conflicted S N x}

variable {A} {F D N E P R L S : Set T} {x y : T} {o : O}

theorem Conflicted.depends (h : A.Conflicted S N x) (hdep : A.Depends S x y) :
    A.Conflicted S N y := by
  obtain ⟨z, hz, hzN, hshare, hpath⟩ := h
  exact ⟨z, hz, hzN, hshare, hpath.tail hdep⟩

/-- Nothing that entries in conflict with `N` lead to is in `N`, where `N` completes a ledger that
has no pending entry. -/
theorem Conflicted.not_mem (hid : Function.Injective A.id) (hsound : A.Sound (F ∪ N))
    (hfree : ∀ x ∈ S, x ∉ F) (h : A.Conflicted S N x) : x ∉ N := by
  obtain ⟨z, -, hzN, -, hpath⟩ := h
  induction hpath with
  | refl => exact hzN
  | tail _ hdep ih =>
    -- what an entry of `N` spends belongs to the ledger
    rintro hN
    obtain ⟨hS, -, o, ho, hout⟩ := hdep
    obtain ⟨y, hy, hout'⟩ := hsound.resolves _ (.inr hN) o ho
    obtain rfl := hid (hout'.1.trans hout.1.symm)
    exact ih (hy.resolve_left (hfree y hS))

/-- Backed entries that are not in the ledger spend nothing that the ledger spends. -/
theorem Backed.not_spent (hid : Function.Injective A.id) (hsound : A.Sound L)
    (hfresh : ∀ x ∈ P, x ∉ L) (h : A.Backed L P) (hx : x ∈ P) (ho : o ∈ A.spends x) :
    ¬ A.Spent L o := by
  rintro ⟨w, hw, how⟩
  rcases h x hx o ho with ⟨-, hnot⟩ | ⟨y, hy, hout⟩
  · exact hnot ⟨w, hw, how⟩
  · -- the output is one of a pending entry, and of an entry of the ledger
    obtain ⟨y', hy', hout'⟩ := hsound.resolves w hw o how
    obtain rfl := hid (hout'.1.trans hout.1.symm)
    exact hfresh y' hy hy'

section Kept

variable (hid : Function.Injective A.id) (hold : A.Sound (F ∪ D)) (hnew : A.Sound (F ∪ N ∪ E))
  (hfresh : ∀ x ∈ P, x ∉ F ∪ D) (hdisj : ∀ x ∈ D, x ∉ F) (hback : R ⊆ D)
include hfresh hdisj hback

/-- What is left is not in the ledger. -/
theorem not_mem_of_kept (hx : x ∈ A.kept (P ∪ R) N E) : x ∉ F ∪ N ∪ E := by
  obtain ⟨hS, hN, hE, -⟩ := hx
  rintro ((hF | hmem) | hmem)
  · rcases hS with hP | hR
    · exact hfresh x hP (.inl hF)
    · exact hdisj x (hback hR) hF
  · exact hN hmem
  · exact hE hmem

include hid hold

/-- What is left spends no output that the lower part of the ledger spends. -/
theorem not_spent_of_kept (hbacked : A.Backed (F ∪ D) P) (hx : x ∈ A.kept (P ∪ R) N E)
    (ho : o ∈ A.spends x) : ¬ A.Spent (F ∪ N) o := by
  rintro ⟨w, hw, how⟩
  rcases hw with hF | hN
  · rcases hx.1 with hP | hR
    · exact hbacked.not_spent hid hold hfresh hP ho ⟨w, .inl hF, how⟩
    · obtain rfl := hold.once x (.inr (hback hR)) w (.inl hF) o ho how
      exact hdisj x (hback hR) hF
  · exact hx.2.2.2 ⟨x, hx.1, hx.2.1, ⟨w, hN, o, ho, how⟩, .refl⟩

include hnew

/-- **When what is left of the pending entries is backed**: it spends nothing that the last entries
spend, and no output of an entry that was taken off the ledger, unless this entry is there again or
became pending. -/
theorem backed_kept_iff (hbacked : A.Backed (F ∪ D) P) :
    A.Backed (F ∪ N ∪ E) (A.kept (P ∪ R) N E) ↔
      ∀ x ∈ A.kept (P ∪ R) N E, ∀ o ∈ A.spends x, ¬ A.Spent E o ∧
        ∀ y ∈ D, A.id y = A.source o → y ∈ N ∨ y ∈ E ∨ y ∈ R := by
  constructor
  · intro h x hx o ho
    constructor
    · rintro ⟨e, he, hoe⟩
      rcases h x hx o ho with ⟨-, hnot⟩ | ⟨y, hy, hout⟩
      · exact hnot ⟨e, .inr he, hoe⟩
      · obtain ⟨y', hy', hout'⟩ := hnew.resolves e (.inr he) o hoe
        obtain rfl := hid (hout'.1.trans hout.1.symm)
        exact not_mem_of_kept hfresh hdisj hback hy hy'
    · intro y hyD hyo
      rcases h x hx o ho with ⟨⟨y', hy', hout⟩, -⟩ | ⟨y', hy', hout⟩
      · obtain rfl := hid (hout.1.trans hyo.symm)
        rcases hy' with (hF | hN) | hE
        · exact absurd hF (hdisj y' hyD)
        · exact .inl hN
        · exact .inr (.inl hE)
      · obtain rfl := hid (hout.1.trans hyo.symm)
        rcases hy'.1 with hP | hR
        · exact absurd (.inr hyD) (hfresh y' hP)
        · exact .inr (.inr hR)
  · intro h x hx o ho
    obtain ⟨hE, hlost⟩ := h x hx o ho
    have hunspent : ¬ A.Spent (F ∪ N ∪ E) o := by
      rintro ⟨w, hw | hw, how⟩
      · exact not_spent_of_kept hid hold hfresh hdisj hback hbacked hx ho ⟨w, hw, how⟩
      · exact hE ⟨w, hw, how⟩
    -- a pending entry with the output is in the ledger now, or is left like `x`
    have hpending : ∀ y ∈ P ∪ R, A.HasOutput y o →
        (A.Provides (F ∪ N ∪ E) o ∧ ¬ A.Spent (F ∪ N ∪ E) o) ∨
          A.Provides (A.kept (P ∪ R) N E) o := by
      intro y hy hout
      by_cases hyN : y ∈ N
      · exact .inl ⟨⟨y, .inl (.inr hyN), hout⟩, hunspent⟩
      by_cases hyE : y ∈ E
      · exact .inl ⟨⟨y, .inr hyE, hout⟩, hunspent⟩
      refine .inr ⟨y, ⟨hy, hyN, hyE, fun hconf => hx.2.2.2 ?_⟩, hout⟩
      exact hconf.depends ⟨hy, hx.1, o, ho, hout⟩
    have hledger : ∀ y ∈ F ∪ D, A.HasOutput y o →
        (A.Provides (F ∪ N ∪ E) o ∧ ¬ A.Spent (F ∪ N ∪ E) o) ∨
          A.Provides (A.kept (P ∪ R) N E) o := by
      rintro y (hyF | hyD) hout
      · exact .inl ⟨⟨y, .inl (.inl hyF), hout⟩, hunspent⟩
      · rcases hlost y hyD hout.1 with hN | hE | hR
        · exact .inl ⟨⟨y, .inl (.inr hN), hout⟩, hunspent⟩
        · exact .inl ⟨⟨y, .inr hE, hout⟩, hunspent⟩
        · exact hpending y (.inr hR) hout
    rcases hx.1 with hP | hR
    · rcases hbacked x hP o ho with ⟨⟨y, hy, hout⟩, -⟩ | ⟨y, hy, hout⟩
      · exact hledger y hy hout
      · exact hpending y (.inl hy) hout
    · obtain ⟨y, hy, hout⟩ := hold.resolves x (.inr (hback hR)) o ho
      exact hledger y hy hout

end Kept

end Shape

end Pending
