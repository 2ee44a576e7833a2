import Mathlib.Logic.Function.Iterate
import Mathlib.Logic.Relation
import Mathlib.Data.List.Basic
import Mathlib.Tactic.Common

/-!
# Trees of parent links

A forest given by a partial parent function along which a height falls by one. The path of a node
is the list of nodes from below its root up to it; a walk goes from a node back to an ancestor; a
climb is the same list read upwards.

## Main definitions

* `Ancestry.Tree`: a parent function with its height
* `Ancestry.Tree.path`: the nodes from a root, without it, to a node
* `Ancestry.Walk`, `Ancestry.Climb`: a segment of a path, downwards and upwards
* `Ancestry.Below`, `Ancestry.BelowEq`: ancestors
* `Ancestry.Linked`, `Ancestry.LinkedExactly`: forward links that run along a path, and nowhere else

## Main results

* `Tree.path_of_climb`: a climb extends a path
* `Tree.filter_path_of_climb`: where two paths part
* `Tree.below_iff`: one ancestor per height
* `Tree.Linked.push`, `Tree.Linked.pop`: setting one link moves the end of a linked path by one
-/

namespace Ancestry

variable {α : Type*}

/-- The nodes on the way from a root, without it, to `a`, at most `n` of them. -/
def pathFrom (parent : α → Option α) : ℕ → α → List α
  | 0, _ => []
  | n + 1, a =>
    match parent a with
    | none => []
    | some b => pathFrom parent n b ++ [a]

/-- Parent functions that agree on a set closed under parents have the same paths there. -/
theorem pathFrom_congr {parent parent' : α → Option α} {K : α → Prop}
    (hparent : ∀ a, K a → parent' a = parent a)
    (hclosed : ∀ a b, K a → parent a = some b → K b) (n : ℕ) {a : α} (ha : K a) :
    pathFrom parent' n a = pathFrom parent n a := by
  induction n generalizing a with
  | zero => rfl
  | succ n ih =>
    simp only [pathFrom, hparent a ha]
    cases hb : parent a with
    | none => rfl
    | some b => exact congrArg (· ++ [a]) (ih (hclosed a b ha hb))

/-- A set closed under parents has the paths of its members. -/
theorem mem_of_mem_pathFrom {parent : α → Option α} {K : α → Prop}
    (hclosed : ∀ a b, K a → parent a = some b → K b) (n : ℕ) {a k : α} (ha : K a)
    (hk : k ∈ pathFrom parent n a) : K k := by
  induction n generalizing a with
  | zero => cases hk
  | succ n ih =>
    rw [pathFrom] at hk
    split at hk
    · cases hk
    · next b hb =>
      rcases List.mem_append.mp hk with hk | hk
      · exact ih (hclosed a b ha hb) hk
      · rwa [List.mem_singleton.mp hk]

/-- A parent function along which the height falls by one. -/
structure Tree (α : Type*) where
  parent : α → Option α
  height : α → ℕ
  height_of_parent : ∀ {a b}, parent a = some b → height a = height b + 1

/-- The segment from `a` back to, and without, `f`. -/
def Walk (parent : α → Option α) : α → List α → α → Prop
  | a, [], f => a = f
  | a, x :: w, f => x = a ∧ ∃ b, parent a = some b ∧ Walk parent b w f

/-- The segment from `f`, without it, up to `a`. -/
def Climb (parent : α → Option α) : α → List α → α → Prop
  | f, [], a => f = a
  | f, k :: v, a => parent k = some f ∧ Climb parent k v a

/-- `a` is an ancestor of `b` and not `b` itself. -/
def Below (parent : α → Option α) (a b : α) : Prop :=
  Relation.TransGen (fun x y => parent y = some x) a b

/-- `a` is an ancestor of `b`, or `b` itself. -/
def BelowEq (parent : α → Option α) (a b : α) : Prop :=
  Relation.ReflTransGen (fun x y => parent y = some x) a b

variable {parent : α → Option α}

theorem Climb.snoc {f a b : α} {v : List α} (h : Climb parent f v b) (hab : parent a = some b) :
    Climb parent f (v ++ [a]) a := by
  induction v generalizing f with
  | nil =>
    obtain rfl : f = b := h
    exact ⟨hab, rfl⟩
  | cons k v ih => exact ⟨h.1, ih h.2⟩

theorem Climb.append {f m a : α} {v w : List α} (h : Climb parent f v m)
    (h' : Climb parent m w a) : Climb parent f (v ++ w) a := by
  induction v generalizing f with
  | nil =>
    obtain rfl : f = m := h
    exact h'
  | cons k v ih => exact ⟨h.1, ih h.2⟩

/-- The nodes of a climb have parents. -/
theorem Climb.exists_parent {f a k : α} {v : List α} (h : Climb parent f v a) (hk : k ∈ v) :
    ∃ p, parent k = some p := by
  induction v generalizing f with
  | nil => cases hk
  | cons x v ih =>
    rcases List.mem_cons.mp hk with rfl | hk
    · exact ⟨f, h.1⟩
    · exact ih h.2 hk

/-- A climb up to a node on the way. -/
theorem Climb.of_append_cons {f x a : α} {v w : List α} (h : Climb parent f (v ++ x :: w) a) :
    Climb parent f (v ++ [x]) x := by
  induction v generalizing f with
  | nil => exact ⟨h.1, rfl⟩
  | cons k v ih => exact ⟨h.1, ih h.2⟩

/-- A climb read downwards starts at its end, -/
theorem Climb.head?_reverse {f a : α} {v : List α} (h : Climb parent f v a) :
    (v.reverse ++ [f])[0]? = some a := by
  induction v generalizing f with
  | nil => exact congrArg some h
  | cons k v ih =>
    rw [List.reverse_cons, List.getElem?_append_left (by simp)]
    exact ih h.2

/-- and goes from parent to parent. -/
theorem Climb.getElem?_reverse {f a : α} {v : List α} (h : Climb parent f v a)
    (hroot : parent f = none) (d : ℕ) :
    (v.reverse ++ [f])[d]?.bind parent = (v.reverse ++ [f])[d + 1]? := by
  suffices hbelow : ∀ d < v.length,
      (v.reverse ++ [f])[d]?.bind parent = (v.reverse ++ [f])[d + 1]? by
    have hend (e : ℕ) (he : v.length < e) : (v.reverse ++ [f])[e]? = none :=
      List.getElem?_eq_none (by rw [List.length_append, List.length_reverse]; exact he)
    rcases Nat.lt_trichotomy d v.length with hlt | rfl | hgt
    · exact hbelow d hlt
    · rw [hend _ (Nat.lt_succ_self _), List.getElem?_append_right (by simp)]
      simpa using hroot
    · rw [hend d hgt, hend (d + 1) (Nat.lt_succ_of_lt hgt)]
      rfl
  clear hroot d
  induction v generalizing f with
  | nil => exact fun d hd => absurd hd (Nat.not_lt_zero d)
  | cons k v ih =>
    intro d hd
    rw [List.length_cons] at hd
    have hleft (e : ℕ) (he : e < v.length + 1) :
        ((k :: v).reverse ++ [f])[e]? = (v.reverse ++ [k])[e]? := by
      rw [List.reverse_cons]
      exact List.getElem?_append_left (by simpa using he)
    rcases Nat.lt_or_ge d v.length with hlt | hge
    · rw [hleft d (by omega), hleft (d + 1) (by omega)]
      exact ih h.2 d hlt
    · -- the first node of the climb, and what it starts from
      obtain rfl : d = v.length := by omega
      rw [hleft _ (by omega), List.getElem?_append_right (by simp),
        List.getElem?_append_right (by simp)]
      simpa using h.1

theorem Walk.climb {a f : α} {w : List α} (h : Walk parent a w f) :
    Climb parent f w.reverse a := by
  induction w generalizing a with
  | nil => exact Eq.symm h
  | cons x w ih =>
    obtain ⟨rfl, b, hb, hw⟩ := h
    rw [List.reverse_cons]
    exact (ih hw).snoc hb

/-- Parent functions that agree on a set closed under parents have the same ancestors there. -/
theorem belowEq_congr {parent' : α → Option α} {K : α → Prop}
    (hparent : ∀ a, K a → parent' a = parent a)
    (hclosed : ∀ a b, K a → parent a = some b → K b) {x a : α} (ha : K a) :
    BelowEq parent' x a ↔ BelowEq parent x a := by
  constructor
  · intro h
    induction h with
    | refl => exact Relation.ReflTransGen.refl
    | tail _ hstep ih =>
      rw [hparent _ ha] at hstep
      exact (ih (hclosed _ _ ha hstep)).tail hstep
  · intro h
    induction h with
    | refl => exact Relation.ReflTransGen.refl
    | tail _ hstep ih =>
      exact (ih (hclosed _ _ ha hstep)).tail ((hparent _ ha).trans hstep)

namespace Tree

variable (T : Tree α)

/-- The nodes from a root, without it, up to `a`. -/
def path (a : α) : List α := pathFrom T.parent (T.height a) a

variable {T}

theorem path_of_root {a : α} (h : T.parent a = none) : T.path a = [] := by
  unfold path
  cases T.height a with
  | zero => rfl
  | succ n => simp [pathFrom, h]

theorem path_of_parent {a b : α} (h : T.parent a = some b) : T.path a = T.path b ++ [a] := by
  unfold path
  rw [T.height_of_parent h]
  simp [pathFrom, h]

/-- **A climb extends a path.** -/
theorem path_of_climb {f a : α} {v : List α} (h : Climb T.parent f v a) :
    T.path a = T.path f ++ v := by
  induction v generalizing f with
  | nil =>
    obtain rfl : f = a := h
    simp
  | cons k v ih =>
    rw [ih h.2, path_of_parent h.1]
    simp

theorem height_of_climb {f a : α} {v : List α} (h : Climb T.parent f v a) :
    T.height a = T.height f + v.length := by
  induction v generalizing f with
  | nil =>
    obtain rfl : f = a := h
    rfl
  | cons k v ih =>
    have := T.height_of_parent h.1
    rw [ih h.2, List.length_cons]
    omega

/-- Induction along parents, by height. -/
theorem induction_parent {motive : α → Prop} (root : ∀ a, T.parent a = none → motive a)
    (step : ∀ a b, T.parent a = some b → motive b → motive a) (a : α) : motive a := by
  induction hn : T.height a generalizing a with
  | zero =>
    refine root a (Option.eq_none_iff_forall_ne_some.mpr fun b hb => ?_)
    have := T.height_of_parent hb
    omega
  | succ n ih =>
    cases hp : T.parent a with
    | none => exact root a hp
    | some b =>
      have := T.height_of_parent hp
      exact step a b hp (ih b (by omega))

/-- Every node is climbed to from a root along its path. -/
theorem exists_root_climb (a : α) : ∃ r, T.parent r = none ∧ Climb T.parent r (T.path a) a := by
  induction a using T.induction_parent with
  | root a h =>
    refine ⟨a, h, ?_⟩
    rw [path_of_root h]
    rfl
  | step a b h ih =>
    obtain ⟨r, hr, hc⟩ := ih
    refine ⟨r, hr, ?_⟩
    rw [path_of_parent h]
    exact hc.snoc h

/-- A node of a path has a parent, below the end of the path. -/
theorem exists_parent_of_mem_path {k a : α} (h : k ∈ T.path a) :
    ∃ p, T.parent k = some p ∧ T.height p < T.height a := by
  induction a using T.induction_parent with
  | root a ha => simp [path_of_root ha] at h
  | step a b hb ih =>
    have := T.height_of_parent hb
    rw [path_of_parent hb, List.mem_append, List.mem_singleton] at h
    rcases h with h | rfl
    · obtain ⟨p, hp, hlt⟩ := ih h
      exact ⟨p, hp, by omega⟩
    · exact ⟨b, hb, by omega⟩

/-- The path of a node of a path begins that path. -/
theorem path_isPrefix_of_mem {k a : α} (h : k ∈ T.path a) : T.path k <+: T.path a := by
  induction a using T.induction_parent with
  | root a ha => simp [path_of_root ha] at h
  | step a b hb ih =>
    rw [path_of_parent hb, List.mem_append, List.mem_singleton] at h
    rcases h with h | rfl
    · rw [path_of_parent hb]
      exact (ih h).trans (List.prefix_append _ _)
    · exact List.prefix_refl _

theorem mem_path_of_parent {k a b : α} (h : T.parent a = some b) :
    k ∈ T.path a ↔ k ∈ T.path b ∨ k = a := by
  rw [path_of_parent h, List.mem_append, List.mem_singleton]

/-- The end of a path is its only node at that height. -/
theorem height_le_of_mem_path {k a : α} (h : k ∈ T.path a) :
    T.height k ≤ T.height a ∧ (T.height a ≤ T.height k → k = a) := by
  induction a using T.induction_parent with
  | root a ha => simp [path_of_root ha] at h
  | step a b hb ih =>
    have := T.height_of_parent hb
    rcases (mem_path_of_parent hb).mp h with h | rfl
    · obtain ⟨hle, -⟩ := ih h
      exact ⟨by omega, by omega⟩
    · exact ⟨Nat.le_refl _, fun _ => rfl⟩

/-- A node of a path leads to its end. -/
theorem exists_climb_of_mem_path {k a : α} (h : k ∈ T.path a) : ∃ v, Climb T.parent k v a := by
  induction a using T.induction_parent with
  | root a ha => simp [path_of_root ha] at h
  | step a b hb ih =>
    rcases (mem_path_of_parent hb).mp h with h | rfl
    · obtain ⟨v, hv⟩ := ih h
      exact ⟨v ++ [a], hv.snoc hb⟩
    · exact ⟨[], rfl⟩

/-- A climb goes up. -/
theorem lt_height_of_mem_climb {f a k : α} {v : List α} (h : Climb T.parent f v a) (hk : k ∈ v) :
    T.height f < T.height k := by
  induction v generalizing f with
  | nil => cases hk
  | cons x v ih =>
    have := T.height_of_parent h.1
    rcases List.mem_cons.mp hk with rfl | hk
    · omega
    · exact Nat.lt_trans (by omega) (ih h.2 hk)

/-- **Two paths over a fork**: what the first has and the second has not. -/
theorem filter_path_of_climb [DecidableEq α] {f a b : α} {v w : List α}
    (ha : Climb T.parent f v a) (hb : Climb T.parent f w b) (hdisj : ∀ k ∈ v, k ∉ w) :
    (T.path a).filter (fun k => decide (k ∉ T.path b)) = v := by
  rw [path_of_climb ha, List.filter_append]
  have hlow : (T.path f).filter (fun k => decide (k ∉ T.path b)) = [] := by
    refine List.filter_eq_nil_iff.mpr fun k hk => ?_
    rw [path_of_climb hb]
    simp [hk]
  have hhigh : v.filter (fun k => decide (k ∉ T.path b)) = v := by
    refine List.filter_eq_self.mpr fun k hk => ?_
    rw [path_of_climb hb, decide_eq_true_iff, List.mem_append]
    rintro (hf | hw)
    · have := lt_height_of_mem_climb ha hk
      have := (height_le_of_mem_path hf).1
      omega
    · exact hdisj k hk hw
  rw [hlow, hhigh, List.nil_append]

/-! ## Ancestors -/

theorem height_le_of_belowEq {a b : α} (h : BelowEq T.parent a b) : T.height a ≤ T.height b := by
  induction h with
  | refl => exact Nat.le_refl _
  | tail _ hstep ih =>
    rw [T.height_of_parent hstep]
    exact Nat.le_succ_of_le ih

theorem height_lt_of_below {a b : α} (h : Below T.parent a b) : T.height a < T.height b := by
  obtain ⟨m, hm, hstep⟩ := Relation.TransGen.tail'_iff.mp h
  rw [T.height_of_parent hstep]
  exact Nat.lt_succ_of_le (height_le_of_belowEq hm)

/-- A node has one ancestor at each height. -/
theorem eq_of_belowEq {a b c : α} (ha : BelowEq T.parent a c) (hb : BelowEq T.parent b c)
    (hheight : T.height a = T.height b) : a = b := by
  induction ha with
  | refl =>
    rcases Relation.ReflTransGen.cases_tail hb with heq | ⟨m, hm, hstep⟩
    · exact heq
    · have := height_le_of_belowEq hm
      have := T.height_of_parent hstep
      omega
  | tail ha hstep ih =>
    rcases Relation.ReflTransGen.cases_tail hb with rfl | ⟨m, hm, hstep'⟩
    · have := height_le_of_belowEq ha
      have := T.height_of_parent hstep
      omega
    · obtain rfl := Option.some.inj (hstep.symm.trans hstep')
      exact ih hm

/-- `a` is an ancestor of `b` iff it is lower and the node of its height on the way to `b`. -/
theorem below_iff {a b k : α} (hk : BelowEq T.parent k b) (hheight : T.height k = T.height a) :
    Below T.parent a b ↔ T.height a < T.height b ∧ k = a := by
  constructor
  · intro h
    exact ⟨height_lt_of_below h, eq_of_belowEq hk h.to_reflTransGen hheight⟩
  · rintro ⟨hlt, rfl⟩
    rcases Relation.reflTransGen_iff_eq_or_transGen.mp hk with rfl | h
    · exact absurd hlt (Nat.lt_irrefl _)
    · exact h

/-! ## Forward links -/

/-- The links `next` run along the path of `a`. -/
def Linked (T : Tree α) (next : α → Option α) (a : α) : Prop :=
  ∀ k ∈ T.path a, ∀ p, T.parent k = some p → next p = some k

variable {next : α → Option α} {a b : α}

/-- Linking the parent forward extends a linked path. -/
theorem Linked.push [DecidableEq α] (h : T.Linked next b) (hab : T.parent a = some b) :
    T.Linked (Function.update next b (some a)) a := by
  intro k hk p hp
  rw [path_of_parent hab, List.mem_append, List.mem_singleton] at hk
  rcases hk with hk | rfl
  · obtain ⟨p', hp', hlt⟩ := exists_parent_of_mem_path hk
    obtain rfl := Option.some.inj (hp.symm.trans hp')
    rw [Function.update_of_ne (by rintro rfl; exact Nat.lt_irrefl _ hlt)]
    exact h k hk p hp
  · obtain rfl := Option.some.inj (hp.symm.trans hab)
    exact Function.update_self ..

/-- Any link out of the parent may be dropped when the path ends there. -/
theorem Linked.pop [DecidableEq α] (h : T.Linked next a) (hab : T.parent a = some b)
    (v : Option α) : T.Linked (Function.update next b v) b := by
  intro k hk p hp
  obtain ⟨p', hp', hlt⟩ := exists_parent_of_mem_path hk
  obtain rfl := Option.some.inj (hp.symm.trans hp')
  rw [Function.update_of_ne (by rintro rfl; exact Nat.lt_irrefl _ hlt)]
  refine h k ?_ p hp
  rw [path_of_parent hab]
  exact List.mem_append_left _ hk

/-- **Following the links** along a climb of linked nodes reaches its end. -/
theorem iterate_of_climb {r : α} {v : List α} (hc : Climb T.parent r v a)
    (hnext : ∀ k ∈ v, ∀ p, T.parent k = some p → next p = some k) :
    (fun o : Option α => o.bind next)^[v.length] (some r) = some a := by
  induction v generalizing r with
  | nil =>
    obtain rfl : r = a := hc
    rfl
  | cons k v ih =>
    have hk : next r = some k := hnext k List.mem_cons_self r hc.1
    rw [List.length_cons, Function.iterate_succ_apply, Option.bind_some, hk]
    exact ih hc.2 fun k' hk' => hnext k' (List.mem_cons_of_mem _ hk')

/-! ## Exact links -/

/-- Below a child, there are the child and what is below its parent. -/
theorem belowEq_iff_of_parent {k : α} (hab : T.parent a = some b) :
    BelowEq T.parent k a ↔ k = a ∨ BelowEq T.parent k b := by
  constructor
  · intro h
    rcases Relation.ReflTransGen.cases_tail h with heq | ⟨m, hm, hstep⟩
    · exact Or.inl heq.symm
    · obtain rfl := Option.some.inj (hab.symm.trans hstep)
      exact Or.inr hm
  · rintro (rfl | h)
    · exact Relation.ReflTransGen.refl
    · exact h.tail hab

/-- Below the end of a climb, there are its nodes and what is below its start. -/
theorem belowEq_iff_of_climb {f k : α} {v : List α} (h : Climb T.parent f v a) :
    BelowEq T.parent k a ↔ k ∈ v ∨ BelowEq T.parent k f := by
  induction v generalizing f with
  | nil =>
    obtain rfl : f = a := h
    simp
  | cons x v ih =>
    rw [ih h.2, belowEq_iff_of_parent h.1, List.mem_cons]
    tauto

/-- A climb rises by one at each node. -/
theorem height_of_getElem?_climb {f k : α} {v : List α} (h : Climb T.parent f v a) {i : ℕ}
    (hk : v[i]? = some k) : T.height k = T.height f + i + 1 := by
  induction v generalizing f i with
  | nil => cases hk
  | cons x v ih =>
    have hstep := T.height_of_parent h.1
    cases i with
    | zero =>
      obtain rfl : x = k := Option.some.inj hk
      exact hstep
    | succ i =>
      have hrest := ih h.2 hk
      omega

/-- **The links `next` are those of the way to `a`**, and no others. -/
def LinkedExactly (T : Tree α) (next : α → Option α) (a : α) : Prop :=
  ∀ p k, next p = some k ↔ T.parent k = some p ∧ BelowEq T.parent k a

/-- Without links the way is a root. -/
theorem LinkedExactly.of_root (h : T.parent a = none) (hnext : ∀ p, next p = none) :
    T.LinkedExactly next a := by
  intro p k
  rw [hnext p]
  constructor
  · intro hnone
    cases hnone
  · rintro ⟨hk, hbelow⟩
    rcases Relation.ReflTransGen.cases_tail hbelow with rfl | ⟨m, -, hstep⟩
    · rw [h] at hk
      cases hk
    · rw [h] at hstep
      cases hstep

/-- Linking the end of the way to a child. -/
theorem LinkedExactly.push [DecidableEq α] (h : T.LinkedExactly next b)
    (hab : T.parent a = some b) : T.LinkedExactly (Function.update next b (some a)) a := by
  intro p k
  rw [belowEq_iff_of_parent hab]
  by_cases hp : p = b
  · subst hp
    rw [Function.update_self]
    constructor
    · intro heq
      obtain rfl := Option.some.inj heq
      exact ⟨hab, Or.inl rfl⟩
    · rintro ⟨hk, rfl | hbelow⟩
      · rfl
      · have := height_le_of_belowEq hbelow
        have := T.height_of_parent hk
        omega
  · rw [Function.update_of_ne hp, h p k]
    constructor
    · exact fun ⟨hk, hbelow⟩ => ⟨hk, Or.inr hbelow⟩
    · rintro ⟨hk, rfl | hbelow⟩
      · exact absurd (Option.some.inj (hk.symm.trans hab)) hp
      · exact ⟨hk, hbelow⟩

/-- Cutting the last link of the way. -/
theorem LinkedExactly.pop [DecidableEq α] (h : T.LinkedExactly next a)
    (hab : T.parent a = some b) : T.LinkedExactly (Function.update next b none) b := by
  intro p k
  by_cases hp : p = b
  · subst hp
    rw [Function.update_self]
    constructor
    · intro hnone
      cases hnone
    · rintro ⟨hk, hbelow⟩
      have := height_le_of_belowEq hbelow
      have := T.height_of_parent hk
      omega
  · rw [Function.update_of_ne hp, h p k, belowEq_iff_of_parent hab]
    constructor
    · rintro ⟨hk, rfl | hbelow⟩
      · exact absurd (Option.some.inj (hk.symm.trans hab)) hp
      · exact ⟨hk, hbelow⟩
    · exact fun ⟨hk, hbelow⟩ => ⟨hk, Or.inr hbelow⟩

/-- Below the end of the way, a link leads on along it. -/
theorem LinkedExactly.exists_next (h : T.LinkedExactly next a) {k : α}
    (hk : BelowEq T.parent k a) (hlt : T.height k < T.height a) :
    ∃ k', next k = some k' ∧ T.height k' = T.height k + 1 ∧ BelowEq T.parent k' a := by
  rcases Relation.ReflTransGen.cases_head hk with rfl | ⟨k', hstep, hbelow⟩
  · exact absurd hlt (Nat.lt_irrefl _)
  · exact ⟨k', (h k k').2 ⟨hstep, hbelow⟩, T.height_of_parent hstep, hbelow⟩

end Tree

end Ancestry
