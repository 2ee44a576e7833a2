import Mathlib.Data.Finset.Lattice.Fold
import Mathlib.Logic.Relation

/-!
# Groups that overlap

Sets are taken in one after the other. Each is put together with the blocks that it meets, so that the
blocks are always apart.

## Main definitions

* `Coalesce.Together`: two elements are in one set
* `Coalesce.absorb`: a set is put together with what it meets
* `Coalesce.Coalesced`: blocks that are what has been taken in, put together

## Main results

* `Coalesce.Coalesced.absorb`, `Coalesce.Coalesced.foldl`
-/

namespace Coalesce

section Together

variable {α : Type} {groups : Finset (Finset α)} {a b c : α}

/-- Two elements are in one of the sets. -/
def Together (groups : Finset (Finset α)) (a b : α) : Prop := ∃ g ∈ groups, a ∈ g ∧ b ∈ g

/-- Sets with an element in common are one. -/
def Apart (blocks : Finset (Finset α)) : Prop :=
  ∀ b ∈ blocks, ∀ c ∈ blocks, ∀ a, a ∈ b → a ∈ c → b = c

theorem Together.symm (h : Together groups a b) : Together groups b a := by
  obtain ⟨g, hg, ha, hb⟩ := h
  exact ⟨g, hg, hb, ha⟩

theorem Apart.trans_together (h : Apart groups) (hab : Together groups a b)
    (hbc : Together groups b c) : Together groups a c := by
  obtain ⟨g, hg, ha, hb⟩ := hab
  obtain ⟨g', hg', hb', hc⟩ := hbc
  obtain rfl := h g hg g' hg' b hb hb'
  exact ⟨g, hg, ha, hc⟩

/-- Where sets are apart, chains lead nowhere else. -/
theorem Apart.together_of_transGen (h : Apart groups)
    (hab : Relation.TransGen (Together groups) a b) : Together groups a b := by
  induction hab with
  | single hab => exact hab
  | tail _ hbc ih => exact h.trans_together ih hbc

/-- Steps that lead nowhere are left out of a chain. -/
theorem eq_or_transGen {r s : α → α → Prop} (hstep : ∀ a b, r a b → a = b ∨ Relation.TransGen s a b)
    (hab : Relation.TransGen r a b) : a = b ∨ Relation.TransGen s a b := by
  induction hab with
  | single hab => exact hstep _ _ hab
  | tail _ hbc ih =>
    rcases hstep _ _ hbc with rfl | hbc
    · exact ih
    · rcases ih with rfl | hab
      · exact .inr hbc
      · exact .inr (hab.trans hbc)

/-- **The blocks are `groups`, put together where they overlap.** -/
structure Coalesced (groups blocks : Finset (Finset α)) : Prop where
  empty_mem : ∅ ∈ blocks ↔ ∅ ∈ groups
  apart : Apart blocks
  together : ∀ a b, Together blocks a b ↔ Relation.TransGen (Together groups) a b

theorem coalesced_empty : Coalesced (∅ : Finset (Finset α)) ∅ where
  empty_mem := Iff.rfl
  apart _ h := absurd h (Finset.notMem_empty _)
  together a b := by
    constructor
    · rintro ⟨g, hg, -⟩
      exact absurd hg (Finset.notMem_empty _)
    · intro h
      obtain ⟨_, ⟨g, hg, -⟩, -⟩ := Relation.TransGen.head'_iff.1 h
      exact absurd hg (Finset.notMem_empty _)

end Together

variable {α : Type} [DecidableEq α]

/-- The blocks that `g` meets. -/
def hits (blocks : Finset (Finset α)) (g : Finset α) : Finset (Finset α) :=
  blocks.filter fun block => ¬Disjoint block g

/-- A set with the blocks that it meets. -/
def merged (blocks : Finset (Finset α)) (g : Finset α) : Finset α := g ∪ (hits blocks g).sup id

/-- `g` is put together with the blocks that it meets. -/
def absorb (blocks : Finset (Finset α)) (g : Finset α) : Finset (Finset α) :=
  insert (merged blocks g) (blocks \ hits blocks g)

variable {groups blocks : Finset (Finset α)} {g : Finset α} {a b c : α}

theorem together_insert :
    Together (insert g groups) a b ↔ a ∈ g ∧ b ∈ g ∨ Together groups a b := by
  simp only [Together, Finset.mem_insert, exists_eq_or_imp]

theorem mem_hits {block : Finset α} :
    block ∈ hits blocks g ↔ block ∈ blocks ∧ ∃ a ∈ block, a ∈ g := by
  rw [hits, Finset.mem_filter, Finset.not_disjoint_iff]

theorem mem_merged : a ∈ merged blocks g ↔ a ∈ g ∨ ∃ block ∈ hits blocks g, a ∈ block := by
  simp only [merged, Finset.mem_union, Finset.mem_sup, id_eq]

theorem mem_absorb {block : Finset α} :
    block ∈ absorb blocks g ↔ block = merged blocks g ∨ block ∈ blocks ∧ Disjoint block g := by
  simp only [absorb, hits, Finset.mem_insert, Finset.mem_sdiff, Finset.mem_filter]
  tauto

/-- What is taken in and what it meets is one block after that. -/
theorem together_absorb :
    Together (absorb blocks g) a b ↔
      a ∈ merged blocks g ∧ b ∈ merged blocks g ∨ Together blocks a b := by
  constructor
  · rintro ⟨block, hblock, ha, hb⟩
    rcases mem_absorb.1 hblock with rfl | ⟨hold, -⟩
    · exact .inl ⟨ha, hb⟩
    · exact .inr ⟨block, hold, ha, hb⟩
  · rintro (⟨ha, hb⟩ | ⟨block, hold, ha, hb⟩)
    · exact ⟨_, mem_absorb.2 (.inl rfl), ha, hb⟩
    · by_cases hmeets : Disjoint block g
      · exact ⟨block, mem_absorb.2 (.inr ⟨hold, hmeets⟩), ha, hb⟩
      · have hhit : block ∈ hits blocks g := Finset.mem_filter.2 ⟨hold, hmeets⟩
        exact ⟨_, mem_absorb.2 (.inl rfl), mem_merged.2 (.inr ⟨block, hhit, ha⟩),
          mem_merged.2 (.inr ⟨block, hhit, hb⟩)⟩

theorem empty_mem_absorb : ∅ ∈ absorb blocks g ↔ g = ∅ ∨ ∅ ∈ blocks := by
  rw [mem_absorb]
  constructor
  · rintro (heq | ⟨hmem, -⟩)
    · refine .inl (Finset.eq_empty_of_forall_notMem fun a ha => ?_)
      exact absurd (heq ▸ mem_merged.2 (.inl ha)) (Finset.notMem_empty a)
    · exact .inr hmem
  · rintro (rfl | hmem)
    · -- nothing meets the empty set
      refine .inl (Finset.eq_empty_of_forall_notMem fun a ha => ?_).symm
      rcases mem_merged.1 ha with ha | ⟨block, hhit, -⟩
      · exact absurd ha (Finset.notMem_empty a)
      · obtain ⟨-, c, -, hc⟩ := mem_hits.1 hhit
        exact absurd hc (Finset.notMem_empty c)
    · exact .inr ⟨hmem, Finset.disjoint_empty_left g⟩

theorem Apart.absorb (h : Apart blocks) (g : Finset α) : Apart (absorb blocks g) := by
  -- a block that does not meet `g` does not meet what `g` was put together with
  have happart : ∀ block ∈ blocks, Disjoint block g → ∀ a ∈ merged blocks g, a ∉ block := by
    intro block hblock hdisjoint a ha hab
    rcases mem_merged.1 ha with hag | ⟨other, hhit, hother⟩
    · exact Finset.disjoint_left.1 hdisjoint hab hag
    · obtain ⟨hotherMem, c, hc, hcg⟩ := mem_hits.1 hhit
      obtain rfl := h other hotherMem block hblock a hother hab
      exact Finset.disjoint_left.1 hdisjoint hc hcg
  intro b hb c hc a hab hac
  rcases mem_absorb.1 hb with rfl | ⟨hb, hbg⟩
  · rcases mem_absorb.1 hc with rfl | ⟨hc, hcg⟩
    · rfl
    · exact absurd hac (happart c hc hcg a hab)
  · rcases mem_absorb.1 hc with rfl | ⟨hc, hcg⟩
    · exact absurd hab (happart b hb hbg a hac)
    · exact h b hb c hc a hab hac

namespace Coalesced

variable (h : Coalesced groups blocks)

include h

/-- What is put together with `g` is linked to an element of it. -/
theorem exists_link (ha : a ∈ merged blocks g) :
    ∃ c ∈ g, Relation.TransGen (Together (insert g groups)) a c := by
  rcases mem_merged.1 ha with ha | ⟨block, hhit, ha⟩
  · exact ⟨a, ha, .single (together_insert.2 (.inl ⟨ha, ha⟩))⟩
  · obtain ⟨hblock, c, hc, hcg⟩ := mem_hits.1 hhit
    have hlinked := (h.together a c).1 ⟨block, hblock, ha, hc⟩
    exact ⟨c, hcg, Relation.TransGen.mono (fun _ _ hstep => together_insert.2 (.inr hstep)) _ _ hlinked⟩

/-- **A set is taken in.** -/
theorem absorb (g : Finset α) : Coalesced (insert g groups) (absorb blocks g) where
  empty_mem := by
    rw [empty_mem_absorb, Finset.mem_insert, h.empty_mem, eq_comm]
  apart := h.apart.absorb g
  together a b := by
    constructor
    · intro hab
      rcases together_absorb.1 hab with ⟨ha, hb⟩ | hold
      · -- through two elements of what is taken in
        obtain ⟨c, hc, hac⟩ := h.exists_link ha
        obtain ⟨d, hd, hbd⟩ := h.exists_link hb
        have hdb : Relation.TransGen (Together (insert g groups)) d b :=
          Relation.TransGen.mono (fun _ _ hstep => Together.symm hstep) _ _ hbd.swap
        exact (hac.tail (together_insert.2 (.inl ⟨hc, hd⟩))).trans hdb
      · exact Relation.TransGen.mono (fun _ _ hstep => together_insert.2 (.inr hstep)) _ _
          ((h.together a b).1 hold)
    · intro hlinked
      refine (h.apart.absorb g).together_of_transGen
        (Relation.TransGen.mono (fun a b hstep => together_absorb.2 ?_) _ _ hlinked)
      rcases together_insert.1 hstep with ⟨ha, hb⟩ | hold
      · exact .inl ⟨mem_merged.2 (.inl ha), mem_merged.2 (.inl hb)⟩
      · exact .inr ((h.together a b).2 (.single hold))

/-- **Sets are taken in one after the other.** -/
theorem foldl (l : List (Finset α)) :
    Coalesced (groups ∪ l.toFinset) (l.foldl Coalesce.absorb blocks) := by
  induction l generalizing groups blocks with
  | nil => simpa using h
  | cons g l ih =>
    have hrest := ih (h.absorb g)
    rwa [List.foldl_cons, List.toFinset_cons, Finset.union_insert, ← Finset.insert_union]

end Coalesced

end Coalesce
