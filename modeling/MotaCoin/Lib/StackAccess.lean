import Mathlib.Data.List.Basic

/-!
# Checked access to a stack

A computation on a stack of a vector, the back of the vector being its top, that may stop in two
ways: it refuses, with a reason of its own, or it reaches for an element that the stack does not
have. The stack is a list with its top in front. Nothing here is about one program.

## Main definitions

* `Access ε α`: such a computation
* `Access.top`, `Access.pop`, `Access.swapTop`, `Access.eraseTop`, `Access.insertTop`: the accesses,
  with positions counted from the top on, which is at 1
* `Access.Exact x o`: `x` stays within the stack, and its result is `o`

## Main results

* `Access.Exact.bind`: two steps that stay within the stack, one after the other
-/

/-- Why a computation stops. -/
inductive Abort (ε : Type) where
  /-- It refuses to go on. -/
  | refuse (reason : ε)
  /-- An access leaves the stack. -/
  | outOfRange
  deriving DecidableEq, Repr

/-- A computation that accesses a stack. -/
abbrev Access (ε : Type) := Except (Abort ε)

namespace Access

variable {ε α β : Type}

/-- Refuse for a reason. -/
def refuse (reason : ε) : Access ε α := .error (.refuse reason)

/-- Refuse unless `p`. -/
def require (reason : ε) (p : Prop) [Decidable p] : Access ε Unit :=
  if p then pure () else refuse reason

/-- A value, or a refusal. -/
def ofOption (reason : ε) : Option α → Access ε α
  | none => refuse reason
  | some a => pure a

/-- The element at a position. -/
def top (stack : List α) : Nat → Access ε α
  | 0 => .error .outOfRange
  | i + 1 =>
    match stack[i]? with
    | none => .error .outOfRange
    | some a => pure a

/-- The stack without its top. -/
def pop : List α → Access ε (List α)
  | [] => .error .outOfRange
  | _ :: stack => pure stack

/-- The stack without its first `n` elements, popped one by one. -/
def popMany : Nat → List α → Access ε (List α)
  | 0, stack => pure stack
  | n + 1, stack => pop stack >>= popMany n

/-- The elements at two positions swapped. -/
def swapTop (stack : List α) (i j : Nat) : Access ε (List α) := do
  let a ← top stack i
  let b ← top stack j
  pure ((stack.set (i - 1) b).set (j - 1) a)

/-- The stack without the elements from position `i` up to, and without, position `j`. -/
def eraseTop (stack : List α) (i j : Nat) : Access ε (List α) :=
  if j ≤ i ∧ i ≤ stack.length then pure (stack.take j ++ stack.drop i) else .error .outOfRange

/-- The stack with an element inserted below position `i`. -/
def insertTop (stack : List α) (i : Nat) (a : α) : Access ε (List α) :=
  if i ≤ stack.length then pure (stack.take i ++ a :: stack.drop i) else .error .outOfRange

/-- The computation stays within the stack, and `o` is its result; a refusal has none. -/
def Exact (x : Access ε α) (o : Option α) : Prop :=
  match x with
  | .ok a => o = some a
  | .error (.refuse _) => o = none
  | .error .outOfRange => False

variable {x : Access ε α} {o : Option α}

theorem Exact.ne_outOfRange (h : Exact x o) : x ≠ .error .outOfRange := by
  rintro rfl
  exact h

theorem Exact.ok_iff (h : Exact x o) (a : α) : x = .ok a ↔ o = some a := by
  match x, h with
  | .ok b, h =>
    constructor
    · rintro ⟨⟩
      exact h
    · intro ha
      exact congrArg Except.ok (Option.some.inj (h.symm.trans ha))
  | .error (.refuse _), h =>
    constructor
    · nofun
    · intro ha
      cases h.symm.trans ha

theorem Exact.pure (a : α) : Exact (pure a : Access ε α) (some a) := rfl

theorem Exact.refuse (reason : ε) : Exact (refuse reason : Access ε α) none := rfl

theorem Exact.ofOption (reason : ε) (o : Option α) : Exact (ofOption reason o) o := by
  cases o with
  | none => exact .refuse reason
  | some a => exact .pure a

/-- **One step after the other**: what follows has to stay within the stack only from where the
first step can end. -/
theorem Exact.bind {f : α → Access ε β} {g : α → Option β} (hx : Exact x o)
    (hf : ∀ a, o = some a → Exact (f a) (g a)) : Exact (x >>= f) (o.bind g) := by
  match x, hx with
  | .ok a, hx =>
    obtain rfl : o = some a := hx
    exact hf a rfl
  | .error (.refuse reason), hx =>
    obtain rfl : o = none := hx
    exact .refuse reason

theorem Exact.bind_some {f : α → Access ε β} {a : α} {o : Option β} (hx : Exact x (some a))
    (hf : Exact (f a) o) : Exact (x >>= f) o :=
  hx.bind (g := fun _ => o) fun _ hb => Option.some.inj hb ▸ hf

/-- After a condition is required, what follows may use it. -/
theorem Exact.require {reason : ε} {p : Prop} [Decidable p] {f : Unit → Access ε α}
    (hp : p → Exact (f ()) o) (hn : ¬p → o = none) :
    Exact (Access.require reason p >>= f) o := by
  unfold Access.require
  by_cases h : p
  · rw [if_pos h]
    exact hp h
  · rw [if_neg h, hn h]
    exact .refuse reason

/-- A condition that is required here and guarded there. -/
theorem Exact.require_guard {reason : ε} {p q : Prop} [Decidable p] [Decidable q] {f : Unit → Access ε α}
    {g : Unit → Option α} (hpq : p ↔ q) (hf : q → Exact (f ()) (g ())) :
    Exact (Access.require reason p >>= f) ((guard q : Option Unit).bind g) := by
  refine .require (fun hp => ?_) fun hn => ?_
  · have hq := hpq.mp hp
    unfold guard
    rw [if_pos hq]
    exact hf hq
  · unfold guard
    rw [if_neg (mt hpq.mpr hn)]
    rfl

/-- An element that the stack has. -/
theorem Exact.top {stack : List α} {i : Nat} {a : α} {f : α → Access ε β} {o : Option β}
    (ha : stack[i]? = some a) (hf : Exact (f a) o) : Exact (Access.top stack (i + 1) >>= f) o := by
  have htop : (Access.top stack (i + 1) : Access ε α) = .ok a := by
    simp only [Access.top, ha]
    rfl
  rw [htop]
  exact hf

theorem popMany_eq {n : Nat} {stack : List α} (h : n ≤ stack.length) :
    (popMany n stack : Access ε (List α)) = .ok (stack.drop n) := by
  induction n generalizing stack with
  | zero => rfl
  | succ n ih =>
    cases stack with
    | nil => exact absurd h (Nat.not_succ_le_zero n)
    | cons a stack => exact ih (Nat.le_of_succ_le_succ h)

end Access
