import Mathlib.Data.Set.Insert
import Mathlib.Logic.Function.Basic

/-!
# Leases from a pool

A pool of slots with contents, from which holders lease slots: they give a slot back, or use up what
is in it. Nothing here is about one program.

## Main definitions

* `Lease.State`: the slots there are to lease, who holds which, what is in them, and what is used up
* `Lease.State.Safe`: what is to lease is filled, no slot has two holders, and nothing used up is in
  a slot again
* `add`, `drop`, `lease`, `giveBack`, `use`: the steps

## Main results

* `Safe.add`, `Safe.drop`, `Safe.lease`, `Safe.giveBack`, `Safe.use`: every step keeps a pool safe;
  a slot that is added must not be held
-/

namespace Lease

variable {ι η κ : Type}

/-- A pool of slots `ι` with contents `κ`, leased by holders `η`. -/
@[ext]
structure State (ι η κ : Type) where
  /-- The slots to lease. -/
  avail : Set ι
  /-- The slot that a holder has. -/
  held : η → Option ι
  /-- What is in a slot. -/
  content : ι → Option κ
  /-- What was used up. -/
  used : Set κ

namespace State

variable (s : State ι η κ)

/-- A slot to lease, or one that is held. -/
def Live (i : ι) : Prop := i ∈ s.avail ∨ ∃ h, s.held h = some i

/-- Live slots are filled, with different things none of which is used up, and a slot that is held
is held once and not to lease. -/
structure Safe : Prop where
  filled : ∀ i, s.Live i → s.content i ≠ none
  not_avail : ∀ h i, s.held h = some i → i ∉ s.avail
  held_inj : ∀ h h' i, s.held h = some i → s.held h' = some i → h = h'
  content_inj : ∀ i j, s.Live i → s.Live j → s.content i = s.content j → i = j
  unused : ∀ i k, s.Live i → s.content i = some k → k ∉ s.used

/-- No slot is to lease any more, and what is in the slots may change. -/
def drop (content : ι → Option κ) : State ι η κ := { s with avail := ∅, content := content }

variable {s}

theorem Safe.drop (hs : s.Safe) {content : ι → Option κ}
    (hsame : ∀ h i, s.held h = some i → content i = s.content i) : (s.drop content).Safe := by
  have hlive {i : ι} (hi : (s.drop content).Live i) : ∃ h, s.held h = some i :=
    hi.resolve_left (Set.notMem_empty i)
  constructor
  · intro i hi
    obtain ⟨h, hh⟩ := hlive hi
    change content i ≠ none
    rw [hsame h i hh]
    exact hs.filled i (.inr ⟨h, hh⟩)
  · exact fun _ i _ => Set.notMem_empty i
  · exact hs.held_inj
  · intro i j hi hj heq
    obtain ⟨h, hh⟩ := hlive hi
    obtain ⟨h', hh'⟩ := hlive hj
    change content i = content j at heq
    rw [hsame h i hh, hsame h' j hh'] at heq
    exact hs.content_inj i j (.inr ⟨h, hh⟩) (.inr ⟨h', hh'⟩) heq
  · intro i k hi hcontent
    obtain ⟨h, hh⟩ := hlive hi
    change content i = some k at hcontent
    rw [hsame h i hh] at hcontent
    exact hs.unused i k (.inr ⟨h, hh⟩) hcontent

/-- A slot that moves between the pool and a holder stays live, and nothing else changes. -/
theorem Safe.of_live (hs : s.Safe) {s' : State ι η κ} (hlive : ∀ i, s'.Live i → s.Live i)
    (hcontent : ∀ i, s'.Live i → s'.content i = s.content i)
    (hused : ∀ i k, s'.Live i → s.content i = some k → k ∈ s'.used → k ∈ s.used)
    (havail : ∀ h i, s'.held h = some i → i ∉ s'.avail)
    (hinj : ∀ h h' i, s'.held h = some i → s'.held h' = some i → h = h') : s'.Safe := by
  constructor
  · intro i hi
    rw [hcontent i hi]
    exact hs.filled i (hlive i hi)
  · exact havail
  · exact hinj
  · intro i j hi hj heq
    rw [hcontent i hi, hcontent j hj] at heq
    exact hs.content_inj i j (hlive i hi) (hlive j hj) heq
  · intro i k hi hk hmem
    rw [hcontent i hi] at hk
    exact hs.unused i k (hlive i hi) hk (hused i k hi hk hmem)

section Slots

variable [DecidableEq ι]

/-- A slot is filled and put up for lease. -/
def add (s : State ι η κ) (i : ι) (k : κ) : State ι η κ :=
  { s with avail := insert i s.avail, content := Function.update s.content i (some k) }

theorem Safe.add (hs : s.Safe) {i : ι} {k : κ} (hi : ∀ h, s.held h ≠ some i) (hi' : i ∉ s.avail)
    (hk : k ∉ s.used) (hnew : ∀ j, s.Live j → s.content j ≠ some k) : (s.add i k).Safe := by
  have hlive {j : ι} (hj : (s.add i k).Live j) : j = i ∨ j ≠ i ∧ s.Live j := by
    by_cases hji : j = i
    · exact .inl hji
    · rcases hj with hj | hj
      · exact .inr ⟨hji, .inl (hj.resolve_left hji)⟩
      · exact .inr ⟨hji, .inr hj⟩
  have hsame {j : ι} (hj : j ≠ i) : (s.add i k).content j = s.content j :=
    Function.update_of_ne hj _ _
  have hadded : (s.add i k).content i = some k := Function.update_self _ _ _
  constructor
  · intro j hj
    rcases hlive hj with rfl | ⟨hne, hj⟩
    · rw [hadded]
      nofun
    · rw [hsame hne]
      exact hs.filled j hj
  · rintro h j hheld (rfl | hj)
    · exact hi h hheld
    · exact hs.not_avail h j hheld hj
  · exact hs.held_inj
  · intro j j' hj hj' heq
    rcases hlive hj with hji | ⟨hne, hlj⟩ <;> rcases hlive hj' with hji' | ⟨hne', hlj'⟩
    · exact hji.trans hji'.symm
    · rw [hji, hadded, hsame hne'] at heq
      exact absurd heq.symm (hnew j' hlj')
    · rw [hji', hadded, hsame hne] at heq
      exact absurd heq (hnew j hlj)
    · rw [hsame hne, hsame hne'] at heq
      exact hs.content_inj j j' hlj hlj' heq
  · intro j k' hj hcontent
    rcases hlive hj with rfl | ⟨hne, hj⟩
    · rw [hadded] at hcontent
      obtain rfl := Option.some.inj hcontent
      exact hk
    · rw [hsame hne] at hcontent
      exact hs.unused j k' hj hcontent

end Slots

section Holders

variable [DecidableEq η]

/-- A holder leases a slot. -/
def lease (s : State ι η κ) (h : η) (i : ι) : State ι η κ :=
  { s with avail := s.avail \ {i}, held := Function.update s.held h (some i) }

/-- A holder gives the slot `i` back. -/
def giveBack (s : State ι η κ) (h : η) (i : ι) : State ι η κ :=
  { s with avail := insert i s.avail, held := Function.update s.held h none }

theorem held_lease {h h' : η} {i j : ι} (hh' : (s.lease h i).held h' = some j) :
    h' = h ∧ j = i ∨ h' ≠ h ∧ s.held h' = some j := by
  by_cases hhh : h' = h
  · subst hhh
    change Function.update s.held h' (some i) h' = some j at hh'
    rw [Function.update_self] at hh'
    exact .inl ⟨rfl, (Option.some.inj hh').symm⟩
  · change Function.update s.held h (some i) h' = some j at hh'
    rw [Function.update_of_ne hhh] at hh'
    exact .inr ⟨hhh, hh'⟩

theorem live_of_lease {h : η} {i j : ι} (hi : i ∈ s.avail) (hj : (s.lease h i).Live j) : s.Live j := by
  rcases hj with hj | ⟨h', hh'⟩
  · exact .inl hj.1
  · rcases held_lease hh' with ⟨-, rfl⟩ | ⟨-, hh'⟩
    · exact .inl hi
    · exact .inr ⟨h', hh'⟩

theorem Safe.lease (hs : s.Safe) {h : η} {i : ι} (hi : i ∈ s.avail) : (s.lease h i).Safe := by
  refine hs.of_live (fun _ => live_of_lease hi) (fun _ _ => rfl) (fun _ _ _ _ hk => hk) ?_ ?_
  · intro h' j hh' hj
    rcases held_lease hh' with ⟨-, rfl⟩ | ⟨-, hh'⟩
    · exact hj.2 rfl
    · exact hs.not_avail h' j hh' hj.1
  · intro h₁ h₂ j hh₁ hh₂
    rcases held_lease hh₁ with ⟨h₁h, hji⟩ | ⟨-, hl₁⟩ <;>
      rcases held_lease hh₂ with ⟨h₂h, hji'⟩ | ⟨-, hl₂⟩
    · exact h₁h.trans h₂h.symm
    · exact absurd (hji ▸ hi) (hs.not_avail h₂ j hl₂)
    · exact absurd (hji' ▸ hi) (hs.not_avail h₁ j hl₁)
    · exact hs.held_inj h₁ h₂ j hl₁ hl₂

/-- What a holder that lets go of its slot leaves to the others. -/
theorem held_update_none {h h' : η} {j : ι}
    (hh' : Function.update s.held h none h' = some j) : h' ≠ h ∧ s.held h' = some j := by
  by_cases hhh : h' = h
  · subst hhh
    rw [Function.update_self] at hh'
    cases hh'
  · rw [Function.update_of_ne hhh] at hh'
    exact ⟨hhh, hh'⟩

theorem live_of_giveBack {h : η} {i j : ι} (hi : s.held h = some i)
    (hj : (s.giveBack h i).Live j) : s.Live j := by
  rcases hj with (rfl | hj) | ⟨h', hh'⟩
  · exact .inr ⟨h, hi⟩
  · exact .inl hj
  · exact .inr ⟨h', (held_update_none hh').2⟩

theorem Safe.giveBack (hs : s.Safe) {h : η} {i : ι} (hi : s.held h = some i) :
    (s.giveBack h i).Safe := by
  refine hs.of_live (fun _ => live_of_giveBack hi) (fun _ _ => rfl) (fun _ _ _ _ hk => hk) ?_ ?_
  · rintro h' j hh' (rfl | hj)
    · obtain ⟨hne, hh'⟩ := held_update_none hh'
      exact hne (hs.held_inj h' h j hh' hi)
    · exact hs.not_avail h' j (held_update_none hh').2 hj
  · intro h₁ h₂ j hh₁ hh₂
    exact hs.held_inj h₁ h₂ j (held_update_none hh₁).2 (held_update_none hh₂).2

variable [DecidableEq ι]

/-- A holder uses up what is in the slot `i`. -/
def use (s : State ι η κ) (h : η) (i : ι) (k : κ) : State ι η κ :=
  { s with
    held := Function.update s.held h none
    content := Function.update s.content i none
    used := insert k s.used }

/-- What is live after a slot is used up is live before, and not that slot. -/
theorem Safe.live_of_use (hs : s.Safe) {h : η} {i j : ι} {k : κ} (hi : s.held h = some i)
    (hj : (s.use h i k).Live j) : j ≠ i ∧ s.Live j := by
  rcases hj with hj | ⟨h', hh'⟩
  · exact ⟨fun hji => hs.not_avail h i hi (hji ▸ hj), .inl hj⟩
  · obtain ⟨hne, hh'⟩ := held_update_none hh'
    exact ⟨fun hji => hne (hs.held_inj h' h i (hji ▸ hh') hi), .inr ⟨h', hh'⟩⟩

theorem Safe.use (hs : s.Safe) {h : η} {i : ι} {k : κ} (hi : s.held h = some i)
    (hk : s.content i = some k) : (s.use h i k).Safe := by
  refine hs.of_live (fun j hj => (hs.live_of_use hi hj).2)
    (fun j hj => Function.update_of_ne (hs.live_of_use hi hj).1 _ _) ?_
    (fun h' j hh' => hs.not_avail h' j (held_update_none hh').2) fun h₁ h₂ j hh₁ hh₂ =>
      hs.held_inj h₁ h₂ j (held_update_none hh₁).2 (held_update_none hh₂).2
  -- what is used up now is in no other slot
  rintro j k' hj hcontent (rfl | hmem)
  · obtain ⟨hji, hj⟩ := hs.live_of_use hi hj
    exact absurd (hs.content_inj j i hj (.inr ⟨h, hi⟩) (hcontent.trans hk.symm)) hji
  · exact hmem

end Holders

end State

end Lease
