import Mathlib.Data.List.NodupEquivFin

/-!
# Greedy matching

Requests are served from a row of offers, in order, each by an offer of its own. Serving a request
with the first offer that fits serves as many as any other choice. Nothing here is about one program.

## Main definitions

* `Greedy.Matches`: the requests can be served in order
* `Greedy.serve`: the greedy choice

## Main results

* `Greedy.matches_iff_strictMono`: a match is an increasing assignment
* `Greedy.matches_reverse`: requests and offers may be taken from the other end
* `Greedy.serve_iff`: the greedy choice serves all requests whenever that can be done
* `Greedy.matches_filterMap`: what offers have picked for themselves is served
-/

namespace Greedy

variable {α β : Type*} (fits : α → β → Prop)

/-- The requests are served in order, by some of the offers. -/
def Matches (offers : List β) (requests : List α) : Prop :=
  ∃ chosen, List.Sublist chosen offers ∧ List.Forall₂ fits requests chosen

/-- A match is an assignment of requests to offers that keeps the order. -/
theorem matches_iff_strictMono {offers : List β} {requests : List α} :
    Matches fits offers requests ↔
      ∃ f : Fin requests.length → Fin offers.length, StrictMono f ∧
        ∀ i, fits (requests.get i) (offers.get (f i)) := by
  constructor
  · rintro ⟨chosen, hsub, hfits⟩
    obtain ⟨f, hf⟩ := List.sublist_iff_exists_fin_orderEmbedding_get_eq.1 hsub
    obtain ⟨hlen, hget⟩ := List.forall₂_iff_get.1 hfits
    refine ⟨fun i => f (i.cast hlen), fun i j hij => f.strictMono hij, fun i => ?_⟩
    rw [← hf]
    exact hget i i.isLt (hlen ▸ i.isLt)
  · rintro ⟨f, hmono, hfits⟩
    refine ⟨List.ofFn fun i => offers.get (f i), ?_, ?_⟩
    · rw [List.sublist_iff_exists_fin_orderEmbedding_get_eq]
      refine ⟨OrderEmbedding.ofStrictMono (fun i => f (i.cast (by simp)))
        (fun i j hij => hmono hij), fun i => ?_⟩
      simp only [List.get_ofFn]
      rfl
    · rw [List.forall₂_iff_get]
      refine ⟨by simp, fun i hi _ => ?_⟩
      have hi := hfits ⟨i, hi⟩
      simpa using hi

variable {fits}

theorem matches_nil (offers : List β) : Matches fits offers ([] : List α) :=
  ⟨[], List.nil_sublist _, List.Forall₂.nil⟩

theorem not_matches_of_length_lt {offers : List β} {requests : List α}
    (h : offers.length < requests.length) : ¬ Matches fits offers requests := by
  rintro ⟨chosen, hsub, hfits⟩
  have hle := hsub.length_le
  rw [← hfits.length_eq] at hle
  omega

/-- Served from the other end, the same can be done. -/
theorem matches_reverse {offers : List β} {requests : List α} :
    Matches fits offers.reverse requests.reverse ↔ Matches fits offers requests := by
  have hrev {offers : List β} {requests : List α} (h : Matches fits offers requests) :
      Matches fits offers.reverse requests.reverse := by
    obtain ⟨chosen, hsub, hfits⟩ := h
    exact ⟨chosen.reverse, hsub.reverse, List.rel_reverse hfits⟩
  refine ⟨fun h => ?_, hrev⟩
  have h := hrev h
  rwa [List.reverse_reverse, List.reverse_reverse] at h

section Cons

variable {k : β} {offers : List β} {s : α} {requests : List α}

/-- An offer that is not used can be left out. -/
theorem matches_cons_of_matches (h : Matches fits offers requests) :
    Matches fits (k :: offers) requests := by
  obtain ⟨chosen, hsub, hfits⟩ := h
  exact ⟨chosen, hsub.cons k, hfits⟩

/-- **The exchange**: whatever serves the first request, the rest can do without the first offer. -/
theorem Matches.tail (h : Matches fits (k :: offers) (s :: requests)) :
    Matches fits offers requests := by
  obtain ⟨chosen, hsub, hfits⟩ := h
  obtain ⟨x, rest, -, hrest, rfl⟩ := List.forall₂_cons_left_iff.1 hfits
  refine ⟨rest, ?_, hrest⟩
  cases hsub with
  | cons _ h => exact (List.sublist_cons_self x rest).trans h
  | cons_cons _ h => exact h

/-- With an offer that fits, the first request is served by it. -/
theorem matches_cons_cons_of_fits (hfit : fits s k) :
    Matches fits (k :: offers) (s :: requests) ↔ Matches fits offers requests := by
  refine ⟨Matches.tail, ?_⟩
  rintro ⟨chosen, hsub, hfits⟩
  exact ⟨k :: chosen, hsub.cons_cons k, List.Forall₂.cons hfit hfits⟩

/-- An offer that does not fit the first request is of no use. -/
theorem matches_cons_of_not_fits (hfit : ¬ fits s k) :
    Matches fits (k :: offers) (s :: requests) ↔ Matches fits offers (s :: requests) := by
  refine ⟨?_, matches_cons_of_matches⟩
  rintro ⟨chosen, hsub, hfits⟩
  obtain ⟨x, rest, hx, hrest, rfl⟩ := List.forall₂_cons_left_iff.1 hfits
  cases hsub with
  | cons _ h => exact ⟨x :: rest, h, hfits⟩
  | cons_cons _ h => exact absurd hx hfit

end Cons

/-- The first requests are served with them. -/
theorem Matches.take {offers : List β} {requests : List α} (h : Matches fits offers requests)
    (n : Nat) : Matches fits offers (requests.take n) := by
  obtain ⟨chosen, hsub, hfits⟩ := h
  exact ⟨chosen.take n, (List.take_sublist n chosen).trans hsub, List.forall₂_take n hfits⟩

/-! ### Offers that pick their requests -/

section Pick

variable {pick : β → Option α} {offers : List β}

/-- What each offer has picked for itself is served. -/
theorem matches_filterMap (h : ∀ k ∈ offers, ∀ s, pick k = some s → fits s k) :
    Matches fits offers (offers.filterMap pick) := by
  induction offers with
  | nil => exact matches_nil []
  | cons k offers ih =>
    have ih := ih fun k' hk' => h k' (List.mem_cons_of_mem _ hk')
    rw [List.filterMap_cons]
    cases hpick : pick k with
    | none => exact matches_cons_of_matches ih
    | some s => exact (matches_cons_cons_of_fits (h k List.mem_cons_self s hpick)).mpr ih

/-- The offers that are used each serve a request. -/
theorem exists_request {requests : List α} {chosen : List β}
    (h : List.Forall₂ fits requests chosen) {k : β} (hk : k ∈ chosen) :
    ∃ s ∈ requests, fits s k := by
  induction h with
  | nil => exact absurd hk List.not_mem_nil
  | @cons s k' requests chosen hfit _ ih =>
    rcases List.mem_cons.mp hk with rfl | hk
    · exact ⟨s, List.mem_cons_self, hfit⟩
    · obtain ⟨s', hs', hfit'⟩ := ih hk
      exact ⟨s', List.mem_cons_of_mem _ hs', hfit'⟩

/-- If every offer that fits a request has picked one, they have picked as many as can be served. -/
theorem Matches.length_le_filterMap {requests : List α} (h : Matches fits offers requests)
    (hpick : ∀ s ∈ requests, ∀ k ∈ offers, fits s k → (pick k).isSome) :
    requests.length ≤ (offers.filterMap pick).length := by
  obtain ⟨chosen, hsub, hfits⟩ := h
  have hall : ∀ k ∈ chosen, (pick k).isSome := fun k hk => by
    obtain ⟨s, hs, hsk⟩ := exists_request hfits hk
    exact hpick s hs k (hsub.subset hk) hsk
  rw [hfits.length_eq, List.length_filterMap_eq_countP, ← List.countP_eq_length.mpr hall]
  exact hsub.countP_le

end Pick

variable [∀ a b, Decidable (fits a b)]

variable (fits) in
/-- Each offer serves the first request left, if it fits. -/
def serve : List β → List α → Bool
  | _, [] => true
  | [], _ :: _ => false
  | k :: offers, s :: requests =>
    if fits s k then serve offers requests else serve offers (s :: requests)

/-- **The greedy choice serves all requests whenever that can be done.** -/
theorem serve_iff {offers : List β} {requests : List α} :
    serve fits offers requests = true ↔ Matches fits offers requests := by
  induction offers generalizing requests with
  | nil =>
    cases requests with
    | nil => exact iff_of_true rfl (matches_nil [])
    | cons s requests =>
      refine iff_of_false Bool.false_ne_true (not_matches_of_length_lt ?_)
      exact Nat.succ_pos _
  | cons k offers ih =>
    cases requests with
    | nil => exact iff_of_true rfl (matches_nil _)
    | cons s requests =>
      rw [serve]
      by_cases hfit : fits s k
      · rw [if_pos hfit, ih, matches_cons_cons_of_fits hfit]
      · rw [if_neg hfit, ih, matches_cons_of_not_fits hfit]

end Greedy
