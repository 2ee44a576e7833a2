import Mathlib.Data.List.Sort
import Mathlib.Data.Nat.Bitwise
import Mathlib.Data.Nat.Digits.Defs

/-!
# Picking the least, round by round

A scan through a list in the order of time keeps the element of least rank and stops at a time. Over
several rounds, each with its own time to stop at, what was picked before is left out. Nothing here
is about one program.

## Main definitions

* `Rounds.Picks`: what one scan is to pick
* `Rounds.pick`: the scan
* `Rounds.rounds`: what the first rounds picked, in order
* `Rounds.bits`: a number made of one bit of each

## Main results

* `pick_spec`: the scan picks what it is to pick
* `rounds_length`, `rounds_subset`, `rounds_nodup`, `rounds_picks`: while something is left every
  round picks something new
* `testBit_bits`: the bits of the number
-/

namespace Rounds

variable {α : Type*} (time : α → ℤ) (rank : α → ℕ)

/-- **The least of those up to a time**, or the earliest when all are later. -/
structure Picks (stop : ℤ) (left : List α) (a : α) : Prop where
  mem : a ∈ left
  le_stop : ∀ b ∈ left, time b ≤ stop → time a ≤ stop
  least : ∀ b ∈ left, time b ≤ stop → rank a ≤ rank b
  earliest : stop < time a → ∀ b ∈ left, time a ≤ time b

variable {time rank} in
/-- What is picked does not depend on the order of the list. -/
theorem Picks.of_mem_iff {stop : ℤ} {left left' : List α} {a : α}
    (h : Picks time rank stop left a) (hiff : ∀ b, b ∈ left ↔ b ∈ left') :
    Picks time rank stop left' a where
  mem := (hiff a).1 h.mem
  le_stop b hb := h.le_stop b ((hiff b).2 hb)
  least b hb := h.least b ((hiff b).2 hb)
  earliest hlate b hb := h.earliest hlate b ((hiff b).2 hb)

/-- The scan with the best so far. -/
def scan (stop : ℤ) : List α → α → α
  | [], best => best
  | a :: l, best =>
    if stop < time a then best else scan stop l (if rank a < rank best then a else best)

/-- The scan; nothing is picked from an empty list. -/
def pick (stop : ℤ) : List α → Option α
  | [] => none
  | a :: l => some (scan time rank stop l a)

variable {time rank} {stop : ℤ}

theorem scan_eq_or (l : List α) (best : α) :
    scan time rank stop l best = best ∨
      scan time rank stop l best ∈ l ∧ time (scan time rank stop l best) ≤ stop := by
  induction l generalizing best with
  | nil => exact Or.inl rfl
  | cons a l ih =>
    rw [scan]
    split
    · exact Or.inl rfl
    · next hstop =>
      rcases ih (if rank a < rank best then a else best) with heq | ⟨hmem, hle⟩
      · rw [heq]
        split
        · exact Or.inr ⟨List.mem_cons_self, not_lt.1 hstop⟩
        · exact Or.inl rfl
      · exact Or.inr ⟨List.mem_cons_of_mem _ hmem, hle⟩

/-- A scan of what is too late keeps the best so far. -/
theorem scan_of_late {l : List α} (hlate : ∀ a ∈ l, stop < time a) (best : α) :
    scan time rank stop l best = best := by
  cases l with
  | nil => rfl
  | cons a l => rw [scan, if_pos (hlate a List.mem_cons_self)]

theorem rank_scan_le (l : List α) (best : α) :
    rank (scan time rank stop l best) ≤ rank best := by
  induction l generalizing best with
  | nil => exact le_rfl
  | cons a l ih =>
    rw [scan]
    split
    · exact le_rfl
    · refine (ih _).trans ?_
      split
      · next hlt => exact hlt.le
      · exact le_rfl

/-- In a list in the order of time the scan misses none that is not too late. -/
theorem rank_scan_le_of_mem {l : List α} (hsorted : l.Pairwise fun a b => time a ≤ time b)
    (best : α) {b : α} (hb : b ∈ l) (hstop : time b ≤ stop) :
    rank (scan time rank stop l best) ≤ rank b := by
  induction l generalizing best with
  | nil => cases hb
  | cons a l ih =>
    obtain ⟨hhead, htail⟩ := List.pairwise_cons.1 hsorted
    -- Where the scan stops, everything ahead is too late.
    have hle : time a ≤ stop := by
      rcases List.mem_cons.1 hb with rfl | hb
      · exact hstop
      · exact (hhead b hb).trans hstop
    rw [scan, if_neg (not_lt.2 hle)]
    rcases List.mem_cons.1 hb with rfl | hb
    · refine (rank_scan_le _ _).trans ?_
      split
      · exact le_rfl
      · next hge => exact not_lt.1 hge
    · exact ih htail _ hb

/-- **The scan picks** from a list in the order of time. -/
theorem pick_spec {l : List α} (hsorted : l.Pairwise fun a b => time a ≤ time b) {a : α}
    (h : pick time rank stop l = some a) : Picks time rank stop l a := by
  cases l with
  | nil => cases h
  | cons b l =>
    obtain ⟨hhead, htail⟩ := List.pairwise_cons.1 hsorted
    obtain rfl := Option.some.inj h
    have hle_stop : time b ≤ stop → time (scan time rank stop l b) ≤ stop := by
      intro hle
      rcases scan_eq_or l b with heq | ⟨-, hscan⟩
      · rwa [heq]
      · exact hscan
    refine ⟨?_, ?_, ?_, ?_⟩
    · rcases scan_eq_or l b with heq | ⟨hmem, -⟩
      · rw [heq]
        exact List.mem_cons_self
      · exact List.mem_cons_of_mem _ hmem
    · intro c hc hstop
      rcases List.mem_cons.1 hc with rfl | hc
      · exact hle_stop hstop
      · exact hle_stop ((hhead c hc).trans hstop)
    · intro c hc hstop
      rcases List.mem_cons.1 hc with rfl | hc
      · exact rank_scan_le _ _
      · exact rank_scan_le_of_mem htail _ hc hstop
    · intro hlate c hc
      rcases scan_eq_or l b with heq | ⟨-, hscan⟩
      · rw [heq]
        rcases List.mem_cons.1 hc with rfl | hc
        · exact le_rfl
        · exact hhead c hc
      · exact absurd hlate (not_lt.2 hscan)

variable (time rank stop) in
theorem pick_isSome {l : List α} (h : l ≠ []) : ∃ a, pick time rank stop l = some a := by
  cases l with
  | nil => exact absurd rfl h
  | cons a l => exact ⟨_, rfl⟩

section Rounds

variable [DecidableEq α]

variable (time rank) (stops : ℕ → ℤ)

/-- What the first `n` rounds pick from `l`, in order. -/
def rounds (l : List α) : ℕ → List α
  | 0 => []
  | n + 1 =>
    rounds l n ++ (pick time rank (stops n) (l.filter fun a => a ∉ rounds l n)).toList

variable {l : List α} {n : ℕ}

/-- While fewer were picked than there are, one is left. -/
theorem exists_left (hl : l.Nodup) {chosen : List α} (hlen : chosen.length < l.length) :
    (l.filter fun a => a ∉ chosen) ≠ [] := by
  intro hnil
  have hsub : l ⊆ chosen := by
    intro a ha
    have := List.filter_eq_nil_iff.1 hnil a ha
    simpa using this
  have := (List.subperm_of_subset hl hsub).length_le
  omega

/-- A round adds what it picks. -/
theorem rounds_succ (hl : l.Nodup) (hlen : (rounds time rank stops l n).length < l.length) :
    ∃ a, pick time rank (stops n) (l.filter fun a => a ∉ rounds time rank stops l n) = some a ∧
      rounds time rank stops l (n + 1) = rounds time rank stops l n ++ [a] := by
  obtain ⟨a, ha⟩ := pick_isSome time rank (stops n) (exists_left hl hlen)
  refine ⟨a, ha, ?_⟩
  rw [rounds, ha]
  rfl

theorem rounds_length (hl : l.Nodup) (hn : n ≤ l.length) :
    (rounds time rank stops l n).length = n := by
  induction n with
  | zero => rfl
  | succ n ih =>
    have hlen := ih (by omega)
    obtain ⟨a, -, hsucc⟩ := rounds_succ time rank stops hl (hlen.symm ▸ hn)
    rw [hsucc, List.length_append, hlen, List.length_singleton]

variable (hsorted : l.Pairwise fun a b => time a ≤ time b) (hl : l.Nodup)
include hsorted hl

theorem rounds_succ_picks (hn : n < l.length) :
    ∃ a, Picks time rank (stops n) (l.filter fun a => a ∉ rounds time rank stops l n) a ∧
      rounds time rank stops l (n + 1) = rounds time rank stops l n ++ [a] := by
  obtain ⟨a, ha, hsucc⟩ := rounds_succ time rank stops hl
    ((rounds_length time rank stops hl hn.le).symm ▸ hn)
  exact ⟨a, pick_spec (hsorted.filter _) ha, hsucc⟩

theorem rounds_subset (hn : n ≤ l.length) : rounds time rank stops l n ⊆ l := by
  induction n with
  | zero => exact List.nil_subset _
  | succ n ih =>
    obtain ⟨a, hpicks, hsucc⟩ := rounds_succ_picks time rank stops hsorted hl hn
    rw [hsucc]
    refine List.append_subset.2 ⟨ih (by omega), ?_⟩
    exact List.cons_subset.2 ⟨(List.mem_filter.1 hpicks.mem).1, List.nil_subset _⟩

theorem rounds_nodup (hn : n ≤ l.length) : (rounds time rank stops l n).Nodup := by
  induction n with
  | zero => exact List.nodup_nil
  | succ n ih =>
    obtain ⟨a, hpicks, hsucc⟩ := rounds_succ_picks time rank stops hsorted hl hn
    have hnew : a ∉ rounds time rank stops l n := by
      simpa using (List.mem_filter.1 hpicks.mem).2
    rw [hsucc, ← List.concat_eq_append]
    exact (List.nodup_concat _ _).2 ⟨hnew, ih (by omega)⟩

/-- **Every round picks** from what the rounds before it left. -/
theorem rounds_picks (hn : n ≤ l.length) {i : ℕ} {a : α}
    (ha : (rounds time rank stops l n)[i]? = some a) :
    Picks time rank (stops i) (l.filter fun b => b ∉ (rounds time rank stops l n).take i) a := by
  induction n with
  | zero => cases ha
  | succ n ih =>
    obtain ⟨c, hpicks, hsucc⟩ := rounds_succ_picks time rank stops hsorted hl hn
    have hlen := rounds_length time rank stops hl (Nat.le_of_succ_le hn)
    rw [hsucc] at ha ⊢
    rcases lt_trichotomy i n with hlt | rfl | hgt
    · rw [List.getElem?_append_left (hlen.symm ▸ hlt)] at ha
      rw [List.take_append_of_le_length (hlen.symm ▸ hlt.le)]
      exact ih (Nat.le_of_succ_le hn) ha
    · rw [List.getElem?_append_right hlen.le, hlen, Nat.sub_self] at ha
      obtain rfl := Option.some.inj ha
      rw [List.take_left' hlen]
      exact hpicks
    · rw [List.getElem?_eq_none (by simp [hlen]; omega)] at ha
      cases ha

end Rounds

/-! ## One bit of each -/

/-- The number whose bits are those of the elements, from the lowest up. -/
def bits (bit : α → Bool) (l : List α) : ℕ := Nat.ofDigits 2 (l.map fun a => (bit a).toNat)

variable (bit : α → Bool)

theorem bits_cons (a : α) (l : List α) : bits bit (a :: l) = (bit a).toNat + 2 * bits bit l := rfl

theorem bits_concat (l : List α) (a : α) :
    bits bit (l ++ [a]) = bits bit l + (bit a).toNat * 2 ^ l.length := by
  rw [bits, List.map_append, Nat.ofDigits_append, List.length_map, mul_comm]
  rw [List.map_singleton, Nat.ofDigits_singleton, bits]

/-- **A bit of the number** is that of the element in its place, and zero after the last. -/
theorem testBit_bits (l : List α) (i : ℕ) : (bits bit l).testBit i = l[i]?.any bit := by
  induction l generalizing i with
  | nil => simp [bits]
  | cons b l ih =>
    rw [bits_cons]
    cases i with
    | zero =>
      rw [Nat.testBit_zero]
      cases hb : bit b <;> simp [hb]
    | succ i =>
      have hhalf : ((bit b).toNat + 2 * bits bit l) / 2 = bits bit l := by
        have := Bool.toNat_le (bit b)
        omega
      rw [Nat.testBit_succ, hhalf, ih]
      rfl

end Rounds
