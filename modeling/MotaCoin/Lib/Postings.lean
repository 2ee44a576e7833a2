import MotaCoin.Lib.Int64
import Mathlib.Data.List.AList
import Mathlib.Algebra.BigOperators.Group.List.Lemmas

/-!
# Amounts posted to accounts

A book of accounts, in which every amount is a signed 64-bit word. What is posted to an account adds
up, whatever is posted to the others in between. Nothing here is about one program.

## Main definitions

* `Postings.amount book a`: what an account has, nothing if it is not there
* `Postings.post`, `Postings.postAll`: amounts are added
* `Postings.total ps a`: the sum of what the postings `ps` name for an account

## Main results

* `amount_postAll`: an account has its amount and the total, as a word
-/

namespace Postings

variable {α : Type} [DecidableEq α]

/-- What an account has. -/
def amount (book : AList fun _ : α => Int) (a : α) : Int := (book.lookup a).getD 0

/-- An amount is added to an account, which is opened if it is not there. -/
def post (book : AList fun _ : α => Int) (p : α × Int) : AList fun _ : α => Int :=
  book.insert p.1 (Int64.wrap (amount book p.1 + p.2))

/-- Amounts are posted one after the other. -/
def postAll (book : AList fun _ : α => Int) (ps : List (α × Int)) : AList fun _ : α => Int :=
  ps.foldl post book

/-- The sum of what is posted to an account. -/
def total (ps : List (α × Int)) (a : α) : Int := (ps.map fun p => if p.1 = a then p.2 else 0).sum

@[simp]
theorem total_nil (a : α) : total [] a = 0 := rfl

@[simp]
theorem total_cons (p : α × Int) (ps : List (α × Int)) (a : α) :
    total (p :: ps) a = (if p.1 = a then p.2 else 0) + total ps a := by
  rw [total, List.map_cons, List.sum_cons, total]

@[simp]
theorem total_append (ps qs : List (α × Int)) (a : α) :
    total (ps ++ qs) a = total ps a + total qs a := by
  rw [total, List.map_append, List.sum_append, total, total]

theorem total_flatMap {β : Type} (f : β → List (α × Int)) (l : List β) (a : α) :
    total (l.flatMap f) a = (l.map fun b => total (f b) a).sum := by
  induction l with
  | nil => rfl
  | cons b l ih => rw [List.flatMap_cons, total_append, ih, List.map_cons, List.sum_cons]

/-- Amounts that are all posted to one account. -/
theorem total_map_const (a b : α) (vs : List Int) :
    total (vs.map fun v => (a, v)) b = if a = b then vs.sum else 0 := by
  induction vs with
  | nil => rw [List.map_nil, total_nil, List.sum_nil, ite_self]
  | cons v vs ih =>
    rw [List.map_cons, total_cons, ih, List.sum_cons]
    split <;> simp

/-- What is chosen and what is left over add up to all. -/
theorem sum_map_filter_add {β : Type} (f : β → Int) (p : β → Bool) (l : List β) :
    ((l.filter p).map f).sum + ((l.filter fun b => !p b).map f).sum = (l.map f).sum := by
  rw [← List.sum_append, ← List.map_append]
  exact ((List.filter_append_perm p l).map f).sum_eq

/-- A sum over what is chosen is one over all, with nothing for the others. -/
theorem sum_map_filter {β : Type} (f : β → Int) (p : β → Bool) (l : List β) :
    ((l.filter p).map f).sum = (l.map fun b => if p b = true then f b else 0).sum := by
  induction l with
  | nil => rfl
  | cons b l ih =>
    rw [List.filter_cons, List.map_cons, List.sum_cons, ← ih]
    split
    · rw [List.map_cons, List.sum_cons]
    · rw [zero_add]

theorem amount_post (book : AList fun _ : α => Int) (p : α × Int) (a : α) :
    amount (post book p) a = if p.1 = a then Int64.wrap (amount book a + p.2) else amount book a := by
  rw [post]
  split
  · next heq => rw [amount, heq, AList.lookup_insert, Option.getD_some]
  · next hne => rw [amount, AList.lookup_insert_ne (Ne.symm hne), amount]

theorem postAll_append (book : AList fun _ : α => Int) (ps qs : List (α × Int)) :
    postAll book (ps ++ qs) = postAll (postAll book ps) qs := List.foldl_append

/-- **An account has what it had and what is posted to it**, as a word. -/
theorem amount_postAll {book : AList fun _ : α => Int} (h : ∀ a, Int64.InRange (amount book a))
    (ps : List (α × Int)) (a : α) :
    amount (postAll book ps) a = Int64.wrap (amount book a + total ps a) := by
  induction ps generalizing book with
  | nil => rw [total_nil, add_zero, Int64.wrap_eq_self (h a), postAll, List.foldl_nil]
  | cons p ps ih =>
    have hpost : ∀ a, Int64.InRange (amount (post book p) a) := by
      intro b
      rw [amount_post]
      split
      · exact Int64.inRange_wrap _
      · exact h b
    rw [postAll, List.foldl_cons, ← postAll, ih hpost, amount_post, total_cons]
    split
    · rw [Int64.wrap_add_wrap, add_assoc]
    · rw [zero_add]

end Postings
