import Mathlib.Data.Finset.Card
import MotaCoin.Lib.SlidingWindow

/-!
# Sets of the most recent elements

`mruset` keeps its elements in a set, and in a queue in the order they came in. When the queue has
reached the bound, the oldest element makes room for a new one; a lower bound drops what is too
much, and the bound zero is none.

## Main definitions

* `MruSet`, with `insert` and `maxSize`: `mruset`
* `MruSet.Mirrors`: the set holds what the queue holds
* `MruSet.Run`: a set with the elements that came in new
* `MruSet.FullSince`: what the queue keeps of them

## Main results

* `mruset_spec`: the set and the queue after any sequence of calls
-/

namespace MotaCoin

open SlidingWindow

/-- `mruset`. -/
structure MruSet (T : Type) where
  set : Finset T
  queue : List T
  nMaxSize : ℕ

namespace MruSet

variable {T : Type} [DecidableEq T]

/-- `mruset(nMaxSizeIn)`. -/
def empty (nMaxSizeIn : ℕ) : MruSet T := ⟨∅, [], nMaxSizeIn⟩

/-- `set.erase(queue.front()); queue.pop_front()`, on a queue that is not empty. -/
def popFront (m : MruSet T) : MruSet T :=
  match m.queue with
  | [] => m
  | x :: queue => { m with set := m.set.erase x, queue := queue }

/-- `insert`: the set afterwards, and whether the element is new. -/
def insert (m : MruSet T) (x : T) : MruSet T × Bool :=
  if x ∈ m.set then (m, false)
  else
    let m := { m with set := Insert.insert x m.set }
    let m := if m.nMaxSize ≠ 0 ∧ m.queue.length = m.nMaxSize then m.popFront else m
    ({ m with queue := m.queue ++ [x] }, true)

@[simp] theorem queue_popFront (m : MruSet T) : m.popFront.queue = m.queue.tail := by
  unfold popFront
  split
  · next h => rw [h, List.tail_nil]
  · next h => rw [h, List.tail_cons]

@[simp] theorem nMaxSize_popFront (m : MruSet T) : m.popFront.nMaxSize = m.nMaxSize := by
  unfold popFront
  split <;> rfl

/-- The loop of `max_size(s)`. -/
def shrink (s : ℕ) (m : MruSet T) : MruSet T :=
  if s < m.queue.length then shrink s m.popFront else m
termination_by m.queue.length
decreasing_by
  rw [queue_popFront, List.length_tail]
  omega

/-- `max_size(s)`. -/
def maxSize (m : MruSet T) (s : ℕ) : MruSet T :=
  { (if s ≠ 0 then m.shrink s else m) with nMaxSize := s }

/-- The set holds what the queue holds, and nothing is there twice. -/
structure Mirrors (m : MruSet T) : Prop where
  /-- The two have the same elements. -/
  set_eq : m.set = m.queue.toFinset
  /-- The queue does not repeat itself. -/
  nodup : m.queue.Nodup

/-- The queue is within the bound, if there is one. -/
def Bounded (m : MruSet T) : Prop := m.nMaxSize ≠ 0 → m.queue.length ≤ m.nMaxSize

/-- The queue has reached the bound. -/
def Full (m : MruSet T) : Prop := m.nMaxSize ≠ 0 ∧ m.queue.length = m.nMaxSize

/-! ## Single calls -/

section Calls

variable {m : MruSet T} {x : T} {s : ℕ}

theorem mirrors_empty (n : ℕ) : Mirrors (empty n : MruSet T) := ⟨rfl, List.nodup_nil⟩

theorem Mirrors.mem_iff (h : Mirrors m) : x ∈ m.set ↔ x ∈ m.queue := by
  rw [h.set_eq, List.mem_toFinset]

theorem Mirrors.popFront (h : Mirrors m) : Mirrors m.popFront := by
  obtain ⟨set, queue, n⟩ := m
  obtain ⟨hset, hnodup⟩ := h
  cases queue with
  | nil => exact ⟨hset, hnodup⟩
  | cons x queue =>
    simp only [List.nodup_cons] at hset hnodup
    refine ⟨?_, hnodup.2⟩
    show set.erase x = queue.toFinset
    rw [hset, List.toFinset_cons, Finset.erase_insert (by simpa using hnodup.1)]

theorem Mirrors.push (h : Mirrors m) (hx : x ∉ m.queue) :
    Mirrors { m with set := Insert.insert x m.set, queue := m.queue ++ [x] } := by
  constructor
  · show Insert.insert x m.set = (m.queue ++ [x]).toFinset
    rw [h.set_eq, List.toFinset_append]
    ext y
    simp
  · refine List.nodup_append.mpr ⟨h.nodup, List.nodup_singleton x, fun y hy z hz => ?_⟩
    rw [List.mem_singleton.mp hz]
    exact ne_of_mem_of_not_mem hy hx

/-- A new element goes into the set before the oldest one leaves it; it could as well go in
afterwards. -/
theorem insert_of_notMem (h : Mirrors m) (hx : x ∉ m.set) :
    ∃ m', Mirrors m' ∧ x ∉ m'.queue ∧ m'.nMaxSize = m.nMaxSize ∧
      m'.queue = (if m.queue.length = m.nMaxSize then m.queue.tail else m.queue) ∧
      m.insert x = ({ m' with set := Insert.insert x m'.set, queue := m'.queue ++ [x] }, true) := by
  have hqueue : x ∉ m.queue := fun hmem => hx (h.mem_iff.mpr hmem)
  by_cases hfull : m.nMaxSize ≠ 0 ∧ m.queue.length = m.nMaxSize
  · refine ⟨m.popFront, h.popFront, ?_, m.nMaxSize_popFront, ?_, ?_⟩
    · rw [queue_popFront]
      exact fun hmem => hqueue (List.mem_of_mem_tail hmem)
    · rw [queue_popFront, if_pos hfull.2]
    · rw [insert, if_neg hx]
      obtain ⟨set, queue, n⟩ := m
      cases queue with
      | nil => exact absurd hfull.2 (Ne.symm hfull.1)
      | cons y queue =>
        have hne : y ≠ x := by
          rintro rfl
          exact hqueue (List.mem_cons_self ..)
        simp only [if_pos hfull, MruSet.popFront, Finset.erase_insert_of_ne hne.symm]
  · refine ⟨m, h, hqueue, rfl, ?_, ?_⟩
    · split
      · next hlen =>
        -- there is no bound, and no element either
        have hzero : m.queue.length = 0 := by
          by_contra hne
          exact hfull ⟨hlen ▸ hne, hlen⟩
        rw [List.length_eq_zero_iff.mp hzero, List.tail_nil]
      · rfl
    · rw [insert, if_neg hx]
      simp only [if_neg hfull]

theorem Mirrors.insert (h : Mirrors m) (x : T) : Mirrors (m.insert x).1 := by
  by_cases hx : x ∈ m.set
  · rwa [MruSet.insert, if_pos hx]
  · obtain ⟨m', hm', hx', -, -, hinsert⟩ := insert_of_notMem h hx
    rw [hinsert]
    exact hm'.push hx'

theorem Mirrors.shrink (h : Mirrors m) (s : ℕ) : Mirrors (m.shrink s) := by
  fun_induction MruSet.shrink s m with
  | case1 m hlt ih => exact ih h.popFront
  | case2 m hle => exact h

/-- What is left are the last elements. -/
theorem queue_shrink (s : ℕ) (m : MruSet T) : (m.shrink s).queue = m.queue.rtake s := by
  fun_induction MruSet.shrink s m with
  | case1 m hlt ih =>
    rw [ih, queue_popFront, List.rtake, List.rtake, List.drop_tail, List.length_tail]
    congr 1
    omega
  | case2 m hle => rw [List.rtake, Nat.sub_eq_zero_of_le (Nat.not_lt.mp hle), List.drop_zero]

theorem Mirrors.maxSize (h : Mirrors m) (s : ℕ) : Mirrors (m.maxSize s) := by
  have hm : Mirrors (if s ≠ 0 then m.shrink s else m) := by
    split
    · exact h.shrink s
    · exact h
  exact ⟨hm.set_eq, hm.nodup⟩

theorem queue_maxSize (m : MruSet T) (s : ℕ) :
    (m.maxSize s).queue = if s ≠ 0 then m.queue.rtake s else m.queue := by
  unfold maxSize
  split
  · exact queue_shrink s m
  · rfl

end Calls

/-! ## Sequences of calls -/

section Runs

/-- A call that changes the set. -/
inductive Call (T : Type) where
  | insert (x : T)
  | maxSize (s : ℕ)

/-- A set, with the elements that came in new, oldest first. -/
structure Run (T : Type) where
  m : MruSet T
  news : List T

/-- A call; `insert` says whether its element is new. -/
def Run.call (r : Run T) : Call T → Run T
  | .insert x =>
    let (m, isNew) := r.m.insert x
    ⟨m, if isNew then r.news ++ [x] else r.news⟩
  | .maxSize s => ⟨r.m.maxSize s, r.news⟩

/-- Calls on a new set, one after the other. -/
def calls (nMaxSizeIn : ℕ) (ops : List (Call T)) : Run T := ops.foldl Run.call ⟨empty nMaxSizeIn, []⟩

theorem calls_append_singleton (n : ℕ) (ops : List (Call T)) (op : Call T) :
    calls n (ops ++ [op]) = (calls n ops).call op := by
  simp [calls]

variable {r : Run T} {n : ℕ} {ops : List (Call T)}

/-- What `insert` of a new element adds and drops. -/
theorem insert_spec {m : MruSet T} {x : T} (hm : Mirrors m) (hb : Bounded m) (hx : x ∉ m.set) :
    Bounded (m.insert x).1 ∧ ∃ dropped, m.queue ++ [x] = dropped ++ (m.insert x).1.queue ∧
      (dropped = [] ∨ Full (m.insert x).1) := by
  obtain ⟨m', -, -, hmax, hqueue, hinsert⟩ := insert_of_notMem hm hx
  rw [hinsert]
  simp only [Bounded, Full, hmax, List.length_append, List.length_singleton, hqueue]
  by_cases hlen : m.queue.length = m.nMaxSize
  · rw [if_pos hlen]
    cases hq : m.queue with
    | nil =>
      rw [hq, List.length_nil] at hlen
      exact ⟨fun hne => absurd hlen.symm hne, [], rfl, Or.inl rfl⟩
    | cons y queue =>
      rw [hq, List.length_cons] at hlen
      exact ⟨fun _ => hlen.le, [y], rfl, Or.inr ⟨by omega, hlen⟩⟩
  · rw [if_neg hlen]
    refine ⟨fun hne => ?_, [], rfl, Or.inl rfl⟩
    have := hb hne
    omega

/-- What `max_size` drops. -/
theorem maxSize_spec (m : MruSet T) (s : ℕ) :
    Bounded (m.maxSize s) ∧ ∃ dropped, m.queue = dropped ++ (m.maxSize s).queue ∧
      (dropped = [] ∨ Full (m.maxSize s)) := by
  have hmax : (m.maxSize s).nMaxSize = s := rfl
  simp only [Bounded, Full, hmax, queue_maxSize]
  by_cases hs : s ≠ 0
  · rw [if_pos hs, length_rtake]
    refine ⟨fun _ => Nat.min_le_right _ _, m.queue.take (m.queue.length - s), ?_, ?_⟩
    · exact (List.take_append_drop _ _).symm
    · rcases Nat.le_total m.queue.length s with hle | hle
      · exact Or.inl (by rw [Nat.sub_eq_zero_of_le hle, List.take_zero])
      · exact Or.inr ⟨hs, Nat.min_eq_right hle⟩
  · rw [if_neg hs]
    exact ⟨fun hne => absurd hne hs, [], rfl, Or.inl rfl⟩

/-- **What a call adds to the queue and what it drops**: after it has dropped something, the queue is
full. -/
theorem call_spec (hm : Mirrors r.m) (hb : Bounded r.m) (op : Call T) :
    Mirrors (r.call op).m ∧ Bounded (r.call op).m ∧ ∃ dropped added,
      (r.call op).news = r.news ++ added ∧ r.m.queue ++ added = dropped ++ (r.call op).m.queue ∧
      (dropped = [] ∨ Full (r.call op).m) := by
  cases op with
  | insert x =>
    by_cases hx : x ∈ r.m.set
    · -- the set has the element, and nothing happens
      have hcall : r.call (.insert x) = r := by
        simp [Run.call, MruSet.insert, hx]
      rw [hcall]
      exact ⟨hm, hb, [], [], by simp⟩
    · have hnew : (r.call (.insert x)).news = r.news ++ [x] := by
        obtain ⟨m', -, -, -, -, hinsert⟩ := insert_of_notMem hm hx
        simp [Run.call, hinsert]
      obtain ⟨hb', dropped, hdropped, hfull⟩ := insert_spec hm hb hx
      exact ⟨hm.insert x, hb', dropped, [x], hnew, hdropped, hfull⟩
  | maxSize s =>
    obtain ⟨hb', dropped, hdropped, hfull⟩ := maxSize_spec r.m s
    refine ⟨hm.maxSize s, hb', dropped, [], (List.append_nil _).symm, ?_, hfull⟩
    rw [List.append_nil]
    exact hdropped

/-- There was a moment when the queue was full, and nothing has been dropped since. -/
def FullSince (n : ℕ) (ops : List (Call T)) : Prop :=
  ∃ ops₁ ops₂ added, ops = ops₁ ++ ops₂ ∧ Full (calls n ops₁).m ∧
    (calls n ops).news = (calls n ops₁).news ++ added ∧
    (calls n ops).m.queue = (calls n ops₁).m.queue ++ added

/-- What holds after every sequence of calls. -/
theorem calls_spec (n : ℕ) (ops : List (Call T)) :
    Mirrors (calls n ops).m ∧ Bounded (calls n ops).m ∧
      ∃ dropped, (calls n ops).news = dropped ++ (calls n ops).m.queue ∧
        (dropped = [] ∨ FullSince n ops) := by
  induction ops using List.reverseRecOn with
  | nil => exact ⟨mirrors_empty n, fun _ => Nat.zero_le _, [], rfl, Or.inl rfl⟩
  | append_singleton ops op ih =>
    obtain ⟨hm, hb, before, hnews, hsince⟩ := ih
    obtain ⟨hm', hb', dropped, added, hnews', hqueue, hfull⟩ := call_spec hm hb op
    rw [← calls_append_singleton] at hm' hb' hnews' hqueue hfull
    refine ⟨hm', hb', before ++ dropped, ?_, ?_⟩
    · rw [hnews', hnews, List.append_assoc, hqueue, List.append_assoc]
    · rcases hfull with rfl | hfull
      · -- nothing is dropped, and what was full before counts on
        rw [List.append_nil]
        refine hsince.imp_right ?_
        rintro ⟨ops₁, ops₂, since, rfl, hfull₁, hnews₁, hqueue₁⟩
        refine ⟨ops₁, ops₂ ++ [op], since ++ added, by simp, hfull₁, ?_, ?_⟩
        · rw [hnews', hnews₁, List.append_assoc]
        · rw [← List.nil_append (calls n _).m.queue, ← hqueue, hqueue₁, List.append_assoc]
      · -- the moment is now
        exact Or.inr ⟨ops ++ [op], [], [], by simp, hfull, by simp, by simp⟩

end Runs

end MruSet

end MotaCoin
