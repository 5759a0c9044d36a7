import GrammarInduction.Proofs.Ranking.Pairs

/-!
The choice of proposals from sorted pairs. The chosen pairs stand in the order of the scores, a
candidate is proposed alone once and with its best score, and whatever is left out once the room
is filled has no better score than what was taken.
-/
namespace GrammarInduction

instance : Std.TransCmp Score.order :=
  inferInstanceAs (Std.TransCmp (compareLex (compareLex (compareLex
    (compareOn fun s : Score => s.likeness.rank) (compareOn fun s => s.depth.rank))
    (compareOn fun s => s.commonness.rank)) (compareOn fun s => s.size.rank)))

namespace Score

/-- A score is no worse than another one. -/
def AtLeast (a b : Score) : Prop := (a.order b).isGE = true

lemma AtLeast.refl (a : Score) : a.AtLeast a := by
  have h : a.order a = .eq := Std.ReflCmp.compare_self
  rw [AtLeast, h]
  rfl

lemma AtLeast.trans {a b c : Score} (hab : a.AtLeast b) (hbc : b.AtLeast c) : a.AtLeast c :=
  Std.TransCmp.isGE_trans hab hbc

lemma atLeast_total (a b : Score) : a.AtLeast b ∨ b.AtLeast a := by
  have h : b.order a = (a.order b).swap := Std.OrientedCmp.eq_swap
  rw [AtLeast, AtLeast, h]
  cases a.order b <;> simp

end Score

namespace RankedProposal

def pairIds? (e : RankedProposal) : Option (Sym2 String) :=
  match e.proposal with
  | .pair a b => some s(a.id, b.id)
  | .single _ => none

def singleId? (e : RankedProposal) : Option String :=
  match e.proposal with
  | .pair _ _ => none
  | .single c => some c.id

end RankedProposal

namespace Ranking

def toRanked (p : ScoredPair) : RankedProposal := ⟨proposalOf p, p.score⟩

lemma proposalOf_eq_pair_iff {p : ScoredPair} {a b : Candidate} :
    proposalOf p = .pair a b ↔
      p.first = a ∧ p.second = b ∧ p.first.isSingle = false ∧ p.second.isSingle = false := by
  cases h1 : p.first.isSingle <;> cases h2 : p.second.isSingle <;> simp [proposalOf, h1, h2]

lemma proposalOf_eq_single_iff {p : ScoredPair} {c : Candidate} :
    proposalOf p = .single c ↔
      (p.first.isSingle = true ∧ p.second = c) ∨
        (p.first.isSingle = false ∧ p.second.isSingle = true ∧ p.first = c) := by
  cases h1 : p.first.isSingle <;> cases h2 : p.second.isSingle <;> simp [proposalOf, h1, h2]

lemma singleId?_toRanked {p : ScoredPair} {c : Candidate} (h : proposalOf p = .single c) :
    (toRanked p).singleId? = some c.id := by
  simp [toRanked, RankedProposal.singleId?, h]

lemma singleId?_toRanked_of_pair {p : ScoredPair} {a b : Candidate}
    (h : proposalOf p = .pair a b) : (toRanked p).singleId? = none := by
  simp [toRanked, RankedProposal.singleId?, h]

lemma pairIds?_toRanked {p : ScoredPair} {a b : Candidate} (h : proposalOf p = .pair a b) :
    (toRanked p).pairIds? = some s(a.id, b.id) := by
  simp [toRanked, RankedProposal.pairIds?, h]

lemma pairIds?_toRanked_of_single {p : ScoredPair} {c : Candidate}
    (h : proposalOf p = .single c) : (toRanked p).pairIds? = none := by
  simp [toRanked, RankedProposal.pairIds?, h]

lemma choose_nil (room : Nat) (seen : List String) : choose room seen [] = [] := rfl

lemma choose_zero (seen : List String) (ps : List ScoredPair) : choose 0 seen ps = [] := by
  cases ps <;> simp [choose]

section

variable {room : Nat} {seen : List String} {p : ScoredPair} {ps : List ScoredPair}

lemma choose_of_pair {a b : Candidate} (h : proposalOf p = .pair a b) :
    choose (room + 1) seen (p :: ps) = toRanked p :: choose room seen ps := by
  simp [choose, toRanked, h]

lemma choose_of_seen {c : Candidate} (h : proposalOf p = .single c) (hs : c.id ∈ seen) :
    choose (room + 1) seen (p :: ps) = choose (room + 1) seen ps := by
  simp [choose, h, hs]

lemma choose_of_new {c : Candidate} (h : proposalOf p = .single c) (hs : c.id ∉ seen) :
    choose (room + 1) seen (p :: ps) = toRanked p :: choose room (c.id :: seen) ps := by
  simp [choose, toRanked, h, hs]

end

/-- An induction along the choice: at the end, without room, and at a pair that is taken, passed
over, or taken as a candidate alone. -/
theorem choose_induct {P : Nat → List String → List ScoredPair → Prop}
    (nil : ∀ room seen, P room seen [])
    (full : ∀ seen ps, P 0 seen ps)
    (pair : ∀ room seen p ps a b, proposalOf p = .pair a b → P room seen ps →
      P (room + 1) seen (p :: ps))
    (passed : ∀ room seen p ps c, proposalOf p = .single c → c.id ∈ seen →
      P (room + 1) seen ps → P (room + 1) seen (p :: ps))
    (single : ∀ room seen p ps c, proposalOf p = .single c → c.id ∉ seen →
      P room (c.id :: seen) ps → P (room + 1) seen (p :: ps)) :
    ∀ room seen ps, P room seen ps := by
  intro room seen ps
  induction ps generalizing room seen with
  | nil => exact nil room seen
  | cons p ps ih =>
    cases room with
    | zero => exact full seen (p :: ps)
    | succ room =>
      cases hp : proposalOf p with
      | pair a b => exact pair room seen p ps a b hp (ih room seen)
      | single c =>
        by_cases hs : c.id ∈ seen
        · exact passed room seen p ps c hp hs (ih (room + 1) seen)
        · exact single room seen p ps c hp hs (ih room (c.id :: seen))

/-- The proposals are some of the pairs, in their order. -/
theorem choose_eq_map (room : Nat) (seen : List String) (ps : List ScoredPair) :
    ∃ qs, List.Sublist qs ps ∧ choose room seen ps = qs.map toRanked := by
  induction room, seen, ps using choose_induct with
  | nil room seen => exact ⟨[], List.Sublist.slnil, rfl⟩
  | full seen ps => exact ⟨[], List.nil_sublist ps, choose_zero seen ps⟩
  | pair room seen p ps a b hp ih =>
    obtain ⟨qs, hqs, he⟩ := ih
    exact ⟨p :: qs, hqs.cons_cons p, by rw [choose_of_pair hp, he, List.map_cons]⟩
  | passed room seen p ps c hp hs ih =>
    obtain ⟨qs, hqs, he⟩ := ih
    exact ⟨qs, hqs.cons p, by rw [choose_of_seen hp hs, he]⟩
  | single room seen p ps c hp hs ih =>
    obtain ⟨qs, hqs, he⟩ := ih
    exact ⟨p :: qs, hqs.cons_cons p, by rw [choose_of_new hp hs, he, List.map_cons]⟩

lemma length_choose_le (room : Nat) (seen : List String) (ps : List ScoredPair) :
    (choose room seen ps).length ≤ room := by
  induction room, seen, ps using choose_induct with
  | nil room seen => exact Nat.zero_le room
  | full seen ps => rw [choose_zero]; exact Nat.le_refl 0
  | pair room seen p ps a b hp ih =>
    rw [choose_of_pair hp, List.length_cons]
    exact Nat.succ_le_succ ih
  | passed room seen p ps c hp hs ih => rw [choose_of_seen hp hs]; exact ih
  | single room seen p ps c hp hs ih =>
    rw [choose_of_new hp hs, List.length_cons]
    exact Nat.succ_le_succ ih

lemma exists_of_mem_choose {room : Nat} {seen : List String} {ps : List ScoredPair}
    {e : RankedProposal} (h : e ∈ choose room seen ps) : ∃ p ∈ ps, e = toRanked p := by
  obtain ⟨qs, hqs, he⟩ := choose_eq_map room seen ps
  rw [he] at h
  obtain ⟨q, hq, rfl⟩ := List.mem_map.mp h
  exact ⟨q, hqs.subset hq, rfl⟩

/-- Candidates proposed alone are new ones, each once. -/
theorem nodup_singleIds (room : Nat) (seen : List String) (ps : List ScoredPair) :
    ((choose room seen ps).filterMap RankedProposal.singleId?).Nodup ∧
      ∀ x ∈ (choose room seen ps).filterMap RankedProposal.singleId?, x ∉ seen := by
  induction room, seen, ps using choose_induct with
  | nil room seen => simp [choose_nil]
  | full seen ps => simp [choose_zero]
  | pair room seen p ps a b hp ih =>
    rwa [choose_of_pair hp, List.filterMap_cons_none (singleId?_toRanked_of_pair hp)]
  | passed room seen p ps c hp hs ih => rwa [choose_of_seen hp hs]
  | single room seen p ps c hp hs ih =>
    obtain ⟨hnodup, hnew⟩ := ih
    rw [choose_of_new hp hs, List.filterMap_cons_some (singleId?_toRanked hp), List.nodup_cons]
    refine ⟨⟨fun hmem => hnew _ hmem List.mem_cons_self, hnodup⟩, ?_⟩
    intro x hx
    rcases List.mem_cons.mp hx with rfl | hx
    · exact hs
    · exact fun hseen => hnew x hx (List.mem_cons_of_mem _ hseen)

lemma nodup_pairIds_choose (room : Nat) (seen : List String) {ps : List ScoredPair}
    (h : (ps.map pairIds).Nodup) :
    ((choose room seen ps).filterMap RankedProposal.pairIds?).Nodup := by
  obtain ⟨qs, hqs, he⟩ := choose_eq_map room seen ps
  have hsub : ∀ qs : List ScoredPair,
      List.Sublist ((qs.map toRanked).filterMap RankedProposal.pairIds?) (qs.map pairIds) := by
    intro qs
    induction qs with
    | nil => exact List.Sublist.slnil
    | cons q qs ih =>
      rw [List.map_cons, List.map_cons]
      cases hq : proposalOf q with
      | single c =>
        rw [List.filterMap_cons_none (pairIds?_toRanked_of_single hq)]
        exact ih.cons _
      | pair a b =>
        obtain ⟨rfl, rfl, -⟩ := proposalOf_eq_pair_iff.mp hq
        rw [List.filterMap_cons_some (pairIds?_toRanked hq)]
        exact ih.cons_cons _
  rw [he]
  exact h.sublist ((hsub qs).trans (hqs.map pairIds))

/-- What a pair proposes is in a list of proposals, or was proposed before. -/
def Listed (seen : List String) (p : ScoredPair) (es : List RankedProposal) : Prop :=
  match proposalOf p with
  | .pair _ _ => toRanked p ∈ es
  | .single c => c.id ∈ seen ∨ c.id ∈ es.filterMap RankedProposal.singleId?

lemma Listed.cons {seen : List String} {p : ScoredPair} {es : List RankedProposal}
    (h : Listed seen p es) (e : RankedProposal) : Listed seen p (e :: es) := by
  cases hp : proposalOf p with
  | pair a b =>
    simp only [Listed, hp] at h ⊢
    exact List.mem_cons_of_mem _ h
  | single c =>
    simp only [Listed, hp, List.mem_filterMap] at h ⊢
    refine h.imp_right ?_
    rintro ⟨d, hd, he⟩
    exact ⟨d, List.mem_cons_of_mem _ hd, he⟩

/-- Every pair is listed, unless the room is filled with what is no worse. -/
theorem choose_complete (room : Nat) (seen : List String) (ps : List ScoredPair)
    (hsorted : ps.Pairwise fun x y => x.score.AtLeast y.score) :
    ∀ p ∈ ps, Listed seen p (choose room seen ps) ∨
      ((choose room seen ps).length = room ∧
        ∀ e ∈ choose room seen ps, e.score.AtLeast p.score) := by
  induction room, seen, ps using choose_induct with
  | nil room seen => simp
  | full seen ps => simp [choose_zero]
  | pair room seen q ps a b hq ih =>
    obtain ⟨hhead, hsorted⟩ := List.pairwise_cons.mp hsorted
    rw [choose_of_pair hq]
    intro p hp
    rcases List.mem_cons.mp hp with rfl | hp
    · exact .inl (by simp [Listed, hq])
    · rcases ih hsorted p hp with h | ⟨hlen, hall⟩
      · exact .inl (h.cons _)
      · refine .inr ⟨by rw [List.length_cons, hlen], ?_⟩
        exact List.forall_mem_cons.mpr ⟨hhead p hp, hall⟩
  | passed room seen q ps c hq hs ih =>
    obtain ⟨-, hsorted⟩ := List.pairwise_cons.mp hsorted
    rw [choose_of_seen hq hs]
    intro p hp
    rcases List.mem_cons.mp hp with rfl | hp
    · exact .inl (by simp [Listed, hq, hs])
    · exact ih hsorted p hp
  | single room seen q ps c hq hs ih =>
    obtain ⟨hhead, hsorted⟩ := List.pairwise_cons.mp hsorted
    have hsome := singleId?_toRanked hq
    rw [choose_of_new hq hs]
    intro p hp
    rcases List.mem_cons.mp hp with rfl | hp
    · exact .inl (by simp [Listed, hq, List.filterMap_cons_some hsome])
    · rcases ih hsorted p hp with h | ⟨hlen, hall⟩
      · left
        cases hpp : proposalOf p with
        | pair a b =>
          simp only [Listed, hpp] at h ⊢
          exact List.mem_cons_of_mem _ h
        | single d =>
          simp only [Listed, hpp, List.filterMap_cons_some hsome, List.mem_cons] at h ⊢
          tauto
      · refine .inr ⟨by rw [List.length_cons, hlen], ?_⟩
        exact List.forall_mem_cons.mpr ⟨hhead p hp, hall⟩

/-- A candidate proposed alone has the best score of its pairs that propose it alone. -/
theorem choose_single_best (room : Nat) (seen : List String) (ps : List ScoredPair)
    (hsorted : ps.Pairwise fun x y => x.score.AtLeast y.score) :
    ∀ e ∈ choose room seen ps, ∀ c, e.proposal = .single c → ∀ p ∈ ps, ∀ d,
      proposalOf p = .single d → d.id = c.id → e.score.AtLeast p.score := by
  have hfresh : ∀ {room seen ps e c}, e ∈ choose room seen ps → e.proposal = .single c →
      c.id ∉ seen := fun {room seen ps e c} he hc =>
    (nodup_singleIds room seen ps).2 c.id
      (List.mem_filterMap.mpr ⟨e, he, by simp [RankedProposal.singleId?, hc]⟩)
  induction room, seen, ps using choose_induct with
  | nil room seen => simp
  | full seen ps => simp [choose_zero]
  | pair room seen q ps a b hq ih =>
    obtain ⟨hhead, hsorted⟩ := List.pairwise_cons.mp hsorted
    rw [choose_of_pair hq]
    intro e he c hc p hp d hd hid
    rcases List.mem_cons.mp he with rfl | he'
    · rw [toRanked, hq] at hc
      cases hc
    · rcases List.mem_cons.mp hp with rfl | hp'
      · rw [hq] at hd
        cases hd
      · exact ih hsorted e he' c hc p hp' d hd hid
  | passed room seen q ps b hq hs ih =>
    obtain ⟨-, hsorted⟩ := List.pairwise_cons.mp hsorted
    rw [choose_of_seen hq hs]
    intro e he c hc p hp d hd hid
    rcases List.mem_cons.mp hp with rfl | hp'
    · obtain rfl : b = d := Proposal.single.inj (hq.symm.trans hd)
      exact absurd (hid ▸ hs) (hfresh he hc)
    · exact ih hsorted e he c hc p hp' d hd hid
  | single room seen q ps b hq hs ih =>
    obtain ⟨hhead, hsorted⟩ := List.pairwise_cons.mp hsorted
    rw [choose_of_new hq hs]
    intro e he c hc p hp d hd hid
    rcases List.mem_cons.mp he with rfl | he'
    · rcases List.mem_cons.mp hp with rfl | hp'
      · exact .refl _
      · exact hhead p hp'
    · rcases List.mem_cons.mp hp with rfl | hp'
      · obtain rfl : b = d := Proposal.single.inj (hq.symm.trans hd)
        have hmem : c.id ∈ b.id :: seen := hid ▸ List.mem_cons_self
        exact absurd hmem (hfresh he' hc)
      · exact ih hsorted e he' c hc p hp' d hd hid

lemma pairwise_sortPairs (ps : List ScoredPair) :
    (sortPairs ps).Pairwise fun x y => x.score.AtLeast y.score := by
  refine List.pairwise_mergeSort ?_ ?_ ps
  · intro a b c hab hbc
    exact Score.AtLeast.trans hab hbc
  · intro a b
    rw [Bool.or_eq_true]
    exact Score.atLeast_total a.score b.score

end Ranking
end GrammarInduction
