import Mathlib.Data.Nat.Choose.Basic
import GrammarInduction.Proofs.Ranking.Proposals

/-!
What a ranking goes through, whatever its memo holds. A memo may change the scores, but the pairs
that are scored stay the same: at most all pairs, and every candidate of a proposal is one of those
that were ranked.
-/
namespace GrammarInduction
namespace Ranking

/-- What is left of a pair without its score. -/
def members (p : ScoredPair) : Candidate × Candidate := (p.first, p.second)

section

variable (settings : Settings) {a : Candidate} {cs : List Candidate}

lemma exists_scorePair (ha : a.sources.isEmpty = false) (b : Candidate) (memo : LikenessMemo) :
    ∃ p memo', scorePair settings a b memo = .ok (p, memo') ∧
      p.map members = (pairOf? settings a b).map members := by
  obtain ⟨v, hv, -⟩ := Candidate.breaking_eq_ok_of_occurs (b := b) ha
  rw [scorePair, pairOf?, hv]
  by_cases hs : (a.isSingle && b.isSingle) = true
  · rw [if_pos hs, if_pos hs]
    exact ⟨none, memo, rfl, rfl⟩
  · rw [if_neg hs, if_neg hs]
    by_cases hb : (v.selfBreaksOther && v.otherBreaksSelf) = true
    · exact ⟨none, memo, by simp [bind, Except.bind, hb, pure, Except.pure], by simp [hb]⟩
    · simp only [bind, Except.bind, hb, pure, Except.pure]
      refine ⟨_, _, rfl, ?_⟩
      cases v.selfBreaksOther <;> simp [members]

lemma exists_scoreWith (ha : a.sources.isEmpty = false) (bs : List Candidate)
    (memo : LikenessMemo) :
    ∃ ps memo', scoreWith settings a bs memo = .ok (ps, memo') ∧
      ps.map members = (bs.filterMap (pairOf? settings a)).map members := by
  induction bs generalizing memo with
  | nil => exact ⟨[], memo, rfl, rfl⟩
  | cons b bs ih =>
    obtain ⟨here, m1, h1, hhere⟩ := exists_scorePair settings ha b memo
    obtain ⟨rest, m2, h2, hrest⟩ := ih m1
    refine ⟨here.toList ++ rest, m2, ?_, ?_⟩
    · rw [scoreWith, h1]
      simp only [bind, Except.bind, h2, pure, Except.pure]
    · rw [List.map_append, hrest, List.filterMap_cons]
      cases hp : pairOf? settings a b with
      | none => simp_all
      | some p => cases here <;> simp_all

/-- Whatever a memo holds, the same pairs are scored. -/
theorem exists_scorePairs (hcs : ∀ c ∈ cs, c.sources.isEmpty = false) (memo : LikenessMemo) :
    ∃ ps memo', scorePairs settings cs memo = .ok (ps, memo') ∧
      ps.map members = (pairsOf settings cs).map members := by
  induction cs generalizing memo with
  | nil => exact ⟨[], memo, rfl, rfl⟩
  | cons a as ih =>
    obtain ⟨ha, has⟩ := List.forall_mem_cons.mp hcs
    obtain ⟨here, m1, h1, hhere⟩ := exists_scoreWith settings ha as memo
    obtain ⟨rest, m2, h2, hrest⟩ := ih has m1
    refine ⟨here ++ rest, m2, ?_, ?_⟩
    · rw [scorePairs, h1]
      simp only [bind, Except.bind, h2, pure, Except.pure]
    · rw [List.map_append, hhere, hrest, pairsOf, List.map_append]

/-- There are at most as many scored pairs as pairs. -/
theorem length_pairsOf_le (cs : List Candidate) :
    (pairsOf settings cs).length ≤ cs.length * (cs.length - 1) / 2 := by
  induction cs with
  | nil => simp [pairsOf]
  | cons a as ih =>
    have hwith := List.length_filterMap_le (pairOf? settings a) as
    rw [pairsOf, List.length_append, List.length_cons, Nat.triangle_succ]
    omega

lemma mem_of_mem_pairsOf (hcs : ∀ c ∈ cs, c.sources.isEmpty = false) {p : ScoredPair}
    (hp : p ∈ pairsOf settings cs) : p.first ∈ cs ∧ p.second ∈ cs := by
  induction cs with
  | nil => simp [pairsOf] at hp
  | cons a as ih =>
    obtain ⟨ha, has⟩ := List.forall_mem_cons.mp hcs
    rw [pairsOf, List.mem_append] at hp
    rcases hp with hp | hp
    · obtain ⟨b, hb, hp⟩ := List.mem_filterMap.mp hp
      have hb' := List.mem_cons_of_mem a hb
      rcases (judges_of_pairOf? ha (has b hb) hp).order with ⟨hfirst, hsecond⟩ | ⟨hfirst, hsecond⟩
      · exact ⟨hfirst ▸ List.mem_cons_self, hsecond ▸ hb'⟩
      · exact ⟨hfirst ▸ hb', hsecond ▸ List.mem_cons_self⟩
    · obtain ⟨hfirst, hsecond⟩ := ih has hp
      exact ⟨List.mem_cons_of_mem a hfirst, List.mem_cons_of_mem a hsecond⟩

end

/-- A proposal holds candidates of its pair. -/
theorem mem_candidates_proposalOf {p : ScoredPair} {c : Candidate}
    (hc : c ∈ (proposalOf p).candidates) : c = p.first ∨ c = p.second := by
  unfold proposalOf at hc
  split at hc
  · exact .inr (List.mem_singleton.mp hc)
  · split at hc
    · exact .inl (List.mem_singleton.mp hc)
    · simpa [Proposal.candidates] using hc

/-- What a ranking counts and proposes. -/
structure Accounts (cs : List Candidate) (ranking : Ranking) : Prop where
  candidates : ranking.candidates = cs.length
  /-- Every pair is scored or skipped. -/
  pairs : ranking.pairsScored + ranking.pairsSkipped = cs.length * (cs.length - 1) / 2
  mem : ∀ e ∈ ranking.proposals, ∀ c ∈ e.proposal.candidates, c ∈ cs

/-- Candidates that occur somewhere are ranked, whatever the memo holds. -/
theorem exists_ofCandidates (settings : Settings) {candidates : Catalogue String Candidate}
    (hcs : ∀ c ∈ candidates.values, c.sources.isEmpty = false) (memo : LikenessMemo) :
    ∃ ranking memo', ofCandidates settings candidates memo = .ok (ranking, memo') ∧
      Accounts candidates.values ranking := by
  have hperm := sortCandidates_perm candidates.values
  have hsorted : ∀ c ∈ sortCandidates candidates.values, c.sources.isEmpty = false := fun c hc =>
    hcs c (hperm.mem_iff.mp hc)
  obtain ⟨pairs, memo', heq, hpairs⟩ := exists_scorePairs settings hsorted memo
  have hle := length_pairsOf_le settings (sortCandidates candidates.values)
  have hlength : pairs.length = (pairsOf settings (sortCandidates candidates.values)).length := by
    simpa using congrArg List.length hpairs
  rw [ofCandidates, heq]
  refine ⟨_, memo', rfl, hperm.length_eq, ?_, ?_⟩
  · rw [← hlength, hperm.length_eq] at hle
    change pairs.length + ((sortCandidates candidates.values).length *
      ((sortCandidates candidates.values).length - 1) / 2 - pairs.length) = _
    rw [hperm.length_eq]
    omega
  · intro e he c hc
    obtain ⟨p, hp, rfl⟩ := exists_of_mem_choose he
    have hmem : members p ∈ pairs.map members := List.mem_map_of_mem (mem_sortPairs.mp hp)
    rw [hpairs] at hmem
    obtain ⟨q, hq, hqp⟩ := List.mem_map.mp hmem
    obtain ⟨hfirst, hsecond⟩ := Prod.mk.inj hqp
    have hboth := mem_of_mem_pairsOf settings hsorted hq
    rw [hfirst, hsecond] at hboth
    rcases mem_candidates_proposalOf hc with rfl | rfl
    · exact hperm.mem_iff.mp hboth.1
    · exact hperm.mem_iff.mp hboth.2

end Ranking
end GrammarInduction
