import Mathlib.Data.List.Basic
import Mathlib.Tactic.Linarith
import Mathlib.Tactic.Ring

/-!
# Readers of byte streams

A reader takes bytes from the front of a stream and gives a value, or fails. It reads a value
from given bytes when it does so whatever follows them; readers of this kind compose, and two
encodings read by one reader are equal as soon as one is a prefix of the other. Nothing here is
about one program.

## Main definitions

* `Reader α`, `read n`: readers, and the one that takes `n` bytes
* `readN r n`, `inBlocks r blk n`: `n` values one after the other, and `n` values in blocks
* `Reads r bytes a`: the reader `r` takes exactly `bytes` and gives `a`, whatever follows
* `leBytes w n`, `ofLE bytes`: little-endian words

## Main results

* `Reads.bind`, `Reads.readN`, `Reads.inBlocks`: how readers compose
* `Reads.append_inj`, `Reads.eq_of_isPrefix`: no encoding is a proper prefix of another
* `reads_readLE`, `reads_readInt`: words are read back
-/

namespace Wire

/-! ## Readers -/

/-- A reader takes bytes from the front of a stream; `none` is a failure. -/
abbrev Reader (α : Type) := StateT (List UInt8) Option α

/-- Take `n` bytes; fail when there are fewer. -/
def read (n : Nat) : Reader (List UInt8) := fun s =>
  if n ≤ s.length then some (s.take n, s.drop n) else none

variable {α β : Type}

/-- Read `n` values, one after the other. -/
def readN (r : Reader α) : Nat → Reader (List α)
  | 0 => pure []
  | n + 1 => do
    let a ← r
    let as ← readN r n
    pure (a :: as)

/-- Read `n` values, at most `blk` of them at a time. -/
def inBlocks (r : Nat → Reader (List α)) (blk : Nat) (hblk : 0 < blk) (n : Nat) :
    Reader (List α) :=
  if n = 0 then pure []
  else do
    let as ← r (min n blk)
    let as' ← inBlocks r blk hblk (n - min n blk)
    pure (as ++ as')
termination_by n

/-! ## What a reader reads -/

/-- The reader `r` takes exactly `bytes` and gives `a`, whatever follows them. -/
def Reads (r : Reader α) (bytes : List UInt8) (a : α) : Prop :=
  ∀ rest, r (bytes ++ rest) = some (a, rest)

namespace Reads

variable {r : Reader α} {f : α → Reader β} {bytes bytes' : List UInt8} {a a' : α} {b : β}

theorem pure (a : α) : Reads (Pure.pure a) [] a := fun _ => rfl

theorem bind (h : Reads r bytes a) (h' : Reads (f a) bytes' b) :
    Reads (r >>= f) (bytes ++ bytes') b := by
  intro rest
  change (r (bytes ++ bytes' ++ rest)).bind (fun p => f p.1 p.2) = _
  rw [List.append_assoc, h]
  exact h' rest

/-- The last step of a reader takes no bytes. -/
theorem map (h : Reads r bytes a) (g : α → β) :
    Reads (do let a ← r; Pure.pure (g a)) bytes (g a) := by
  have := h.bind (f := fun a => Pure.pure (g a)) (pure (g a))
  rwa [List.append_nil] at this

theorem read (bytes : List UInt8) : Reads (Wire.read bytes.length) bytes bytes := by
  intro rest
  unfold Wire.read
  rw [if_pos (by simp), List.take_left, List.drop_left]

theorem readN {e : α → List UInt8} {as : List α} (h : ∀ a ∈ as, Reads r (e a) a) :
    Reads (Wire.readN r as.length) (as.flatMap e) as := by
  induction as with
  | nil => exact pure []
  | cons a as ih =>
    obtain ⟨ha, has⟩ := List.forall_mem_cons.mp h
    rw [List.flatMap_cons]
    exact ha.bind ((ih has).map (a :: ·))

/-- Reading in blocks is reading the whole, for a reader that reads any part of it. -/
theorem inBlocks {R : Nat → Reader (List α)} {e : α → List UInt8} {P : α → Prop}
    (hR : ∀ as, (∀ a ∈ as, P a) → Reads (R as.length) (as.flatMap e) as)
    {blk : Nat} {hblk : 0 < blk} {as : List α} (has : ∀ a ∈ as, P a) :
    Reads (Wire.inBlocks R blk hblk as.length) (as.flatMap e) as := by
  induction hn : as.length using Nat.strong_induction_on generalizing as with
  | _ n ih =>
    subst hn
    unfold Wire.inBlocks
    split
    next hzero =>
      rw [List.eq_nil_of_length_eq_zero hzero]
      exact pure []
    next hpos =>
      -- the first block, and what the loop reads after it
      have htake : (as.take blk).length = min as.length blk := by
        rw [List.length_take, min_comm]
      have hdrop : (as.drop blk).length = as.length - min as.length blk := by
        rw [List.length_drop]
        omega
      have hfirst := hR (as.take blk) fun a ha => has a (List.mem_of_mem_take ha)
      have hrest := ih (as.drop blk).length (by omega)
        (fun a ha => has a (List.mem_of_mem_drop ha)) rfl
      rw [htake] at hfirst
      rw [hdrop] at hrest
      have hall := bind (f := fun as₁ => do
        let as₂ ← Wire.inBlocks R blk hblk (as.length - min as.length blk)
        Pure.pure (as₁ ++ as₂)) hfirst (hrest.map (as.take blk ++ ·))
      rwa [← List.flatMap_append, List.take_append_drop] at hall

/-- What a reader reads from the front of longer bytes. -/
theorem of_isPrefix (h : Reads r bytes a) {more : List UInt8} (hp : bytes <+: more) :
    (r more).map Prod.fst = some a := by
  obtain ⟨rest, rfl⟩ := hp
  rw [h rest]
  rfl

/-- What follows an encoding cannot be taken for a part of it. -/
theorem append_inj (h : Reads r bytes a) (h' : Reads r bytes' a') {rest rest' : List UInt8}
    (heq : bytes ++ rest = bytes' ++ rest') : a = a' ∧ rest = rest' := by
  have hread := h' rest'
  rw [← heq, h rest] at hread
  exact Prod.mk.inj (Option.some.inj hread)

/-- **No encoding is a proper prefix of another**: equal as soon as one begins the other, and
then the values are equal. -/
theorem eq_of_isPrefix (h : Reads r bytes a) (h' : Reads r bytes' a') (hp : bytes <+: bytes') :
    bytes = bytes' ∧ a = a' := by
  obtain ⟨more, rfl⟩ := hp
  have hlong := h' []
  rw [List.append_nil, h more] at hlong
  obtain ⟨rfl, rfl⟩ := Prod.mk.inj (Option.some.inj hlong)
  exact ⟨(List.append_nil _).symm, rfl⟩

end Reads

/-! ## Little-endian words -/

/-- The `w` low bytes of `n`, lowest first. -/
def leBytes : (w : Nat) → Nat → List UInt8
  | 0, _ => []
  | w + 1, n => UInt8.ofNat n :: leBytes w (n / 256)

/-- The number with the given bytes, lowest first. -/
def ofLE : List UInt8 → Nat
  | [] => 0
  | b :: bytes => b.toNat + 256 * ofLE bytes

@[simp] theorem length_leBytes (w n : Nat) : (leBytes w n).length = w := by
  induction w generalizing n with
  | zero => rfl
  | succ w ih => simp [leBytes, ih]

theorem ofLE_leBytes (w n : Nat) : ofLE (leBytes w n) = n % 256 ^ w := by
  induction w generalizing n with
  | zero => simp [leBytes, ofLE, Nat.mod_one]
  | succ w ih =>
    rw [leBytes, ofLE, ih, UInt8.toNat_ofNat', Nat.pow_succ' (m := 256), Nat.mod_mul]

theorem ofLE_lt (bytes : List UInt8) : ofLE bytes < 256 ^ bytes.length := by
  induction bytes with
  | nil => exact Nat.one_pos
  | cons b bytes ih =>
    rw [ofLE, List.length_cons, Nat.pow_succ]
    have hb := b.toNat_lt
    omega

/-- The number determines the bytes. -/
theorem leBytes_ofLE (bytes : List UInt8) : leBytes bytes.length (ofLE bytes) = bytes := by
  induction bytes with
  | nil => rfl
  | cons b bytes ih =>
    rw [List.length_cons, leBytes, ofLE]
    have hdiv : (b.toNat + 256 * ofLE bytes) / 256 = ofLE bytes := by
      have hlt := b.toNat_lt
      omega
    rw [hdiv, ih]
    congr 1
    refine UInt8.toNat_inj.1 ?_
    rw [UInt8.toNat_ofNat']
    have hlt := b.toNat_lt
    omega

theorem ofLE_append (low high : List UInt8) :
    ofLE (low ++ high) = ofLE low + 256 ^ low.length * ofLE high := by
  induction low with
  | nil => simp [ofLE]
  | cons b low ih =>
    rw [List.cons_append, ofLE, ofLE, ih, List.length_cons, Nat.pow_succ]
    ring

/-- Read a word of `w` bytes. -/
def readLE (w : Nat) : Reader Nat := do
  let bytes ← read w
  pure (ofLE bytes)

theorem reads_readLE {w n : Nat} (h : n < 256 ^ w) : Reads (readLE w) (leBytes w n) n := by
  have := (Reads.read (leBytes w n)).map ofLE
  rwa [length_leBytes, ofLE_leBytes, Nat.mod_eq_of_lt h] at this

/-- The bytes that a word was read from. -/
theorem exists_reads_readLE {w n : Nat} {bytes rest : List UInt8}
    (h : readLE w bytes = some (n, rest)) :
    ∃ word : List UInt8, word.length = w ∧ bytes = word ++ rest ∧ Reads (readLE w) word n := by
  change ((Wire.read w bytes).bind fun p => some (ofLE p.1, p.2)) = _ at h
  obtain ⟨p, hp, heq⟩ := Option.bind_eq_some_iff.mp h
  unfold Wire.read at hp
  split_ifs at hp with hle
  obtain rfl := Option.some.inj hp
  obtain ⟨rfl, rfl⟩ := Prod.mk.inj (Option.some.inj heq)
  have hlen := List.length_take_of_le hle
  have hread := (Reads.read (bytes.take w)).map ofLE
  rw [hlen] at hread
  exact ⟨bytes.take w, hlen, (List.take_append_drop w bytes).symm, hread⟩

/-- The two's complement bytes of `x`. -/
def intBytes (w : Nat) (x : Int) : List UInt8 := leBytes w (x % 256 ^ w).toNat

/-- Read a signed word of `w` bytes. -/
def readInt (w : Nat) : Reader Int := do
  let n ← readLE w
  pure (Int.bmod n (256 ^ w))

@[simp] theorem length_intBytes (w : Nat) (x : Int) : (intBytes w x).length = w :=
  length_leBytes w _

theorem reads_readInt {w : Nat} {x : Int} (h : Int.bmod x (256 ^ w) = x) :
    Reads (readInt w) (intBytes w x) x := by
  have hpos : (0 : Int) < 256 ^ w := by positivity
  have hnonneg := Int.emod_nonneg x hpos.ne'
  have hlt : (x % 256 ^ w).toNat < 256 ^ w := by
    have := Int.emod_lt_of_pos x hpos
    zify
    rwa [Int.toNat_of_nonneg hnonneg]
  have hread := (reads_readLE hlt).map fun n : Nat => Int.bmod n (256 ^ w)
  have hcast : Int.bmod ((x % 256 ^ w).toNat : Int) (256 ^ w) = x := by
    rw [Int.toNat_of_nonneg hnonneg]
    have := Int.emod_bmod x (256 ^ w)
    push_cast at this
    rw [this, h]
  rwa [hcast] at hread

end Wire
