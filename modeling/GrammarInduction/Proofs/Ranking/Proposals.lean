import GrammarInduction.Proofs.Ranking.Choice
import GrammarInduction.Proofs.Survey.Completeness
import GrammarInduction.Proofs.Survey.Numbering

/-!
What a ranking of a survey proposes. Each proposal is of candidates that do not break each other
and has their score, and whatever can be proposed is proposed, up to the number that is wanted.
-/
namespace GrammarInduction

namespace Catalogue

variable {κ : Type _} {ν : Type _} {β : Type _} [DecidableEq κ]

/-- A value that determines its key is held once. -/
theorem nodup_values_map (c : Catalogue κ ν) {f : ν → β}
    (h : ∀ k k' v v', c.get? k = some v → c.get? k' = some v' → f v = f v' → k = k') :
    (c.values.map f).Nodup := by
  rw [values, List.map_map, List.Nodup, List.pairwise_map]
  refine (List.pairwise_map.mp c.nodup).imp_of_mem fun {d e} hd he hne heq => hne ?_
  exact h d.1 e.1 d.2 e.2 (c.get?_eq_some_iff.mpr hd) (c.get?_eq_some_iff.mpr he) heq

end Catalogue

namespace Candidate

instance (a b : Candidate) : Decidable (a.Precedes b) := inferInstanceAs (Decidable (_ ∨ _))

lemma Precedes.asymm {a b : Candidate} (h : a.Precedes b) : ¬b.Precedes a := by
  rintro (h' | h') <;> rcases h with h | h <;> omega

lemma precedes_or_precedes {a b : Candidate} (h : a.seq ≠ b.seq) :
    a.Precedes b ∨ b.Precedes a := by
  unfold Precedes
  omega

end Candidate

namespace Ranking
open Candidate

def pairScore (settings : Settings) (a b : Candidate) : Score :=
  if a.Precedes b then score settings (a.likeness b) a b else score settings (b.likeness a) b a

lemma pairScore_comm (settings : Settings) {a b : Candidate} (h : a.seq ≠ b.seq) :
    pairScore settings a b = pairScore settings b a := by
  rcases precedes_or_precedes h with hab | hba
  · rw [pairScore, pairScore, if_pos hab, if_neg hab.asymm]
  · rw [pairScore, pairScore, if_pos hba, if_neg hba.asymm]

/-- Candidates that can be ranked: each one has an element and occurs somewhere, and they are
told apart by their numbers and by their names. -/
structure Rankable (cs : List Candidate) : Prop where
  length_pos : ∀ c ∈ cs, 0 < c.length
  occurs : ∀ c ∈ cs, c.sources.isEmpty = false
  nodup_seq : (cs.map Candidate.seq).Nodup
  nodup_ids : (cs.map Candidate.id).Nodup

/-- The candidates of a survey can be ranked if their names are distinct. -/
theorem rankable_of_ofForest_ok {settings : Settings} {trees : Forest} {tables t : Tables}
    {s : Survey} (h : Survey.ofForest settings trees tables = (.ok s, t))
    (hids : (s.candidates.values.map Candidate.id).Nodup) : Rankable s.candidates.values where
  length_pos c hc := by
    obtain ⟨r, hr⟩ := (Catalogue.mem_values_iff _).mp hc
    exact Survey.length_pos_of_ofForest_ok h hr
  occurs c hc := by
    obtain ⟨r, hr⟩ := (Catalogue.mem_values_iff _).mp hc
    exact Survey.occurs_of_ofForest_ok h hr
  nodup_seq := Catalogue.nodup_values_map _ fun _ _ _ _ => Survey.eq_of_seq_eq h
  nodup_ids := hids

lemma Rankable.perm {cs ds : List Candidate} (h : Rankable cs) (hp : ds.Perm cs) :
    Rankable ds where
  length_pos c hc := h.length_pos c (hp.mem_iff.mp hc)
  occurs c hc := h.occurs c (hp.mem_iff.mp hc)
  nodup_seq := (hp.map _).nodup_iff.mpr h.nodup_seq
  nodup_ids := (hp.map _).nodup_iff.mpr h.nodup_ids

lemma sortCandidates_perm (cs : List Candidate) : (sortCandidates cs).Perm cs :=
  List.mergeSort_perm cs _

lemma pairwise_sortCandidates {cs : List Candidate} (h : (cs.map Candidate.seq).Nodup) :
    (sortCandidates cs).Pairwise Precedes := by
  have hsorted : (sortCandidates cs).Pairwise fun a b =>
      (b.length < a.length || (b.length == a.length && a.seq ≤ b.seq)) = true :=
    List.pairwise_mergeSort (fun a b c hab hbc => by simp at hab hbc ⊢; omega)
      (fun a b => by simp; omega) cs
  have hseq := List.pairwise_map.mp (((sortCandidates_perm cs).map Candidate.seq).nodup_iff.mpr h)
  refine hsorted.imp₂ (fun a b hle hne => ?_) hseq
  simp only [Bool.or_eq_true, Bool.and_eq_true, decide_eq_true_eq, beq_iff_eq] at hle
  unfold Precedes
  omega

/-- What a scored pair of some candidates says. -/
structure Sound (settings : Settings) (cs : List Candidate) (p : ScoredPair) : Prop where
  first : p.first ∈ cs
  second : p.second ∈ cs
  seq_ne : p.first.seq ≠ p.second.seq
  notBothSingle : ¬(p.first.length = 1 ∧ p.second.length = 1)
  compatible : p.first.Compatible p.second
  spares : p.first.Spares p.second
  score_eq : p.score = pairScore settings p.first p.second

section

variable {settings : Settings} {cs : List Candidate}

lemma sound_of_mem (h : Rankable cs) (hsorted : cs.Pairwise Precedes) {p : ScoredPair}
    (hp : p ∈ pairsOf settings cs) : Sound settings cs p := by
  obtain ⟨a, ha, b, hb, hab, hpair⟩ := (mem_pairsOf_iff hsorted).mp hp
  have hj := judges_of_pairOf? (h.occurs a ha) (h.occurs b hb) hpair
  have hne : a.seq ≠ b.seq := by
    intro he
    have := List.inj_on_of_nodup_map h.nodup_seq ha hb he
    subst this
    exact hab.asymm hab
  have hscore : p.score = pairScore settings a b := by rw [hj.score_eq, pairScore, if_pos hab]
  rcases hj.order with ⟨h1, h2⟩ | ⟨h1, h2⟩
  · exact ⟨h1 ▸ ha, h2 ▸ hb, by rw [h1, h2]; exact hne, by rw [h1, h2]; exact hj.notBothSingle,
      by rw [h1, h2]; exact hj.compatible, hj.spares, by rw [h1, h2]; exact hscore⟩
  · refine ⟨h1 ▸ hb, h2 ▸ ha, ?_, ?_, ?_, hj.spares, ?_⟩ <;> rw [h1, h2]
    · exact hne.symm
    · exact fun hs => hj.notBothSingle ⟨hs.2, hs.1⟩
    · exact hj.compatible.symm (h.occurs a ha) (h.occurs b hb)
    · rw [hscore, pairScore_comm settings hne]

/-- Two candidates that do not break each other have their scored pair. -/
theorem exists_mem_pairsOf (settings : Settings) (h : Rankable cs)
    (hsorted : cs.Pairwise Precedes) {a b : Candidate} (ha : a ∈ cs) (hb : b ∈ cs)
    (hne : a.seq ≠ b.seq) (hs : ¬(a.length = 1 ∧ b.length = 1)) (hc : a.Compatible b) :
    ∃ p ∈ pairsOf settings cs, p.score = pairScore settings a b ∧
      (p.first = a ∧ p.second = b ∨ p.first = b ∧ p.second = a) := by
  have hpair : ∀ a b : Candidate, a ∈ cs → b ∈ cs → a.Precedes b →
      ¬(a.length = 1 ∧ b.length = 1) → a.Compatible b →
      ∃ p ∈ pairsOf settings cs, p.score = pairScore settings a b ∧
        (p.first = a ∧ p.second = b ∨ p.first = b ∧ p.second = a) := by
    intro a b ha hb hab hs hc
    obtain ⟨p, hp⟩ := exists_pairOf? settings hs hc
    have hj := judges_of_pairOf? (h.occurs a ha) (h.occurs b hb) hp
    refine ⟨p, (mem_pairsOf_iff hsorted).mpr ⟨a, ha, b, hb, hab, hp⟩, ?_, hj.order⟩
    rw [hj.score_eq, pairScore, if_pos hab]
  rcases precedes_or_precedes hne with hab | hba
  · exact hpair a b ha hb hab hs hc
  · obtain ⟨p, hp, hscore, horder⟩ := hpair b a hb ha hba (fun hs' => hs ⟨hs'.2, hs'.1⟩)
      (hc.symm (h.occurs a ha) (h.occurs b hb))
    exact ⟨p, hp, by rw [hscore, pairScore_comm settings hne], horder.symm⟩

end

/-- What proposals from some candidates must be. An entry that is left out has no better score
than all that are listed, whose number is then the one that is wanted. -/
structure Ranks (settings : Settings) (cs : List Candidate) (es : List RankedProposal) : Prop where
  sorted : es.Pairwise fun x y => x.score.AtLeast y.score
  length_le : es.length ≤ settings.maxProposals
  pair_sound : ∀ e ∈ es, ∀ a b, e.proposal = .pair a b → a ∈ cs ∧ b ∈ cs ∧ 2 ≤ a.length ∧
    2 ≤ b.length ∧ a.id ≠ b.id ∧ a.Compatible b ∧ a.Spares b ∧ e.score = pairScore settings a b
  pair_once : (es.filterMap RankedProposal.pairIds?).Nodup
  single_sound : ∀ e ∈ es, ∀ c, e.proposal = .single c → c ∈ cs ∧ 2 ≤ c.length ∧
    ∃ d ∈ cs, d.length = 1 ∧ c.Compatible d ∧ e.score = pairScore settings c d
  single_best : ∀ e ∈ es, ∀ c, e.proposal = .single c → ∀ d ∈ cs, d.length = 1 →
    c.Compatible d → e.score.AtLeast (pairScore settings c d)
  single_once : (es.filterMap RankedProposal.singleId?).Nodup
  pair_complete : ∀ a ∈ cs, ∀ b ∈ cs, a.id ≠ b.id → 2 ≤ a.length → 2 ≤ b.length →
    a.Compatible b → s(a.id, b.id) ∈ es.filterMap RankedProposal.pairIds? ∨
      (es.length = settings.maxProposals ∧ ∀ e ∈ es, e.score.AtLeast (pairScore settings a b))
  single_complete : ∀ c ∈ cs, 2 ≤ c.length → ∀ d ∈ cs, d.length = 1 → c.Compatible d →
    c.id ∈ es.filterMap RankedProposal.singleId? ∨
      (es.length = settings.maxProposals ∧ ∀ e ∈ es, e.score.AtLeast (pairScore settings c d))

section

variable {settings : Settings} {cs : List Candidate} {p : ScoredPair}

lemma two_le_length (h : Rankable cs) {c : Candidate} (hc : c ∈ cs) (hs : c.isSingle = false) :
    2 ≤ c.length := by
  have hpos := h.length_pos c hc
  have hne : c.length ≠ 1 := fun h1 => by simp [isSingle_iff.mpr h1] at hs
  omega

lemma isSingle_eq_false {c : Candidate} (hc : 2 ≤ c.length) : c.isSingle = false := by
  rw [← Bool.not_eq_true, isSingle_iff]
  omega

/-- A pair that is proposed as one. -/
theorem Sound.pair (h : Rankable cs) (hp : Sound settings cs p) {a b : Candidate}
    (hab : proposalOf p = .pair a b) :
    a ∈ cs ∧ b ∈ cs ∧ 2 ≤ a.length ∧ 2 ≤ b.length ∧ a.id ≠ b.id ∧ a.Compatible b ∧ a.Spares b ∧
      p.score = pairScore settings a b := by
  obtain ⟨rfl, rfl, hs1, hs2⟩ := proposalOf_eq_pair_iff.mp hab
  have hne : p.first.id ≠ p.second.id := fun he => hp.seq_ne (congrArg Candidate.seq
    (List.inj_on_of_nodup_map h.nodup_ids hp.first hp.second he))
  exact ⟨hp.first, hp.second, two_le_length h hp.first hs1, two_le_length h hp.second hs2,
    hne, hp.compatible, hp.spares, hp.score_eq⟩

/-- A candidate that is proposed alone has a partner of one element. -/
theorem Sound.single (h : Rankable cs) (hp : Sound settings cs p) {c : Candidate}
    (hc : proposalOf p = .single c) :
    c ∈ cs ∧ 2 ≤ c.length ∧
      ∃ d ∈ cs, d.length = 1 ∧ c.Compatible d ∧ p.score = pairScore settings c d := by
  rcases proposalOf_eq_single_iff.mp hc with ⟨hs1, rfl⟩ | ⟨hs1, hs2, rfl⟩
  · have hs2 : p.second.isSingle = false := by
      rw [← Bool.not_eq_true, isSingle_iff]
      exact fun h2 => hp.notBothSingle ⟨isSingle_iff.mp hs1, h2⟩
    refine ⟨hp.second, two_le_length h hp.second hs2, p.first, hp.first, isSingle_iff.mp hs1, ?_, ?_⟩
    · exact hp.compatible.symm (h.occurs _ hp.first) (h.occurs _ hp.second)
    · rw [hp.score_eq, pairScore_comm settings hp.seq_ne]
  · exact ⟨hp.first, two_le_length h hp.first hs1, p.second, hp.second, isSingle_iff.mp hs2,
      hp.compatible, hp.score_eq⟩

/-- A pair with one candidate of one element proposes the other one. -/
theorem proposalOf_eq_single {c d : Candidate} (hc : 2 ≤ c.length) (hd : d.length = 1)
    (hp : p.first = c ∧ p.second = d ∨ p.first = d ∧ p.second = c) :
    proposalOf p = .single c := by
  have hcs : c.isSingle = false := isSingle_eq_false hc
  have hds : d.isSingle = true := isSingle_iff.mpr hd
  rw [proposalOf_eq_single_iff]
  rcases hp with ⟨rfl, rfl⟩ | ⟨rfl, rfl⟩
  · exact .inr ⟨hcs, hds, rfl⟩
  · exact .inl ⟨hds, rfl⟩

/-- A pair without candidates of one element is proposed as it is. -/
theorem proposalOf_eq_pair {a b : Candidate} (ha : 2 ≤ a.length) (hb : 2 ≤ b.length)
    (hp : p.first = a ∧ p.second = b ∨ p.first = b ∧ p.second = a) :
    proposalOf p = .pair p.first p.second ∧ pairIds p = s(a.id, b.id) := by
  rw [proposalOf_eq_pair_iff, pairIds]
  rcases hp with ⟨rfl, rfl⟩ | ⟨rfl, rfl⟩
  · exact ⟨⟨rfl, rfl, isSingle_eq_false ha, isSingle_eq_false hb⟩, rfl⟩
  · exact ⟨⟨rfl, rfl, isSingle_eq_false hb, isSingle_eq_false ha⟩, Sym2.eq_swap⟩

end

lemma mem_sortPairs {ps : List ScoredPair} {p : ScoredPair} : p ∈ sortPairs ps ↔ p ∈ ps :=
  (List.mergeSort_perm ps _).mem_iff

/-- The choice from the sorted pairs of sorted candidates ranks these. -/
theorem ranks_choose {settings : Settings} {cs : List Candidate} (h : Rankable cs)
    (hsorted : cs.Pairwise Precedes) :
    Ranks settings cs (choose settings.maxProposals [] (sortPairs (pairsOf settings cs))) := by
  have hps := pairwise_sortPairs (pairsOf settings cs)
  have hsound : ∀ e ∈ choose settings.maxProposals [] (sortPairs (pairsOf settings cs)),
      ∃ p, Sound settings cs p ∧ e = toRanked p := by
    intro e he
    obtain ⟨p, hp, rfl⟩ := exists_of_mem_choose he
    exact ⟨p, sound_of_mem h hsorted (mem_sortPairs.mp hp), rfl⟩
  have hids : ((sortPairs (pairsOf settings cs)).map pairIds).Nodup :=
    ((List.mergeSort_perm _ _).map _).nodup_iff.mpr (nodup_pairIds h.nodup_ids)
  refine ⟨?_, length_choose_le _ _ _, ?_, nodup_pairIds_choose _ _ hids, ?_, ?_,
    (nodup_singleIds _ _ _).1, ?_, ?_⟩
  · obtain ⟨qs, hqs, he⟩ := choose_eq_map settings.maxProposals [] (sortPairs (pairsOf settings cs))
    rw [he, List.pairwise_map]
    exact hps.sublist hqs
  · intro e he a b hab
    obtain ⟨p, hp, rfl⟩ := hsound e he
    exact hp.pair h hab
  · intro e he c hc
    obtain ⟨p, hp, rfl⟩ := hsound e he
    exact hp.single h hc
  · intro e he c hc d hd hd1 hcd
    obtain ⟨p, hp, rfl⟩ := hsound e he
    obtain ⟨hmem, hlen, -⟩ := hp.single h hc
    have hne : c.seq ≠ d.seq := fun heq => by
      obtain rfl := List.inj_on_of_nodup_map h.nodup_seq hmem hd heq
      omega
    obtain ⟨q, hq, hscore, horder⟩ := exists_mem_pairsOf settings h hsorted hmem hd
      hne (fun h' => by omega) hcd
    rw [← hscore]
    exact choose_single_best _ _ _ hps _ he c hc q (mem_sortPairs.mpr hq) c
      (proposalOf_eq_single hlen hd1 horder) rfl
  · intro a ha b hb hne ha2 hb2 hab
    have hseq : a.seq ≠ b.seq := fun heq =>
      hne (congrArg Candidate.id (List.inj_on_of_nodup_map h.nodup_seq ha hb heq))
    obtain ⟨p, hp, hscore, horder⟩ := exists_mem_pairsOf settings h hsorted ha hb
      hseq (fun h' => by omega) hab
    obtain ⟨hpair, hids⟩ := proposalOf_eq_pair ha2 hb2 horder
    rcases choose_complete settings.maxProposals [] _ hps p (mem_sortPairs.mpr hp) with
      hlisted | hfull
    · simp only [Listed, hpair] at hlisted
      exact .inl (List.mem_filterMap.mpr ⟨_, hlisted, hids ▸ pairIds?_toRanked hpair⟩)
    · exact .inr (hscore ▸ hfull)
  · intro c hc hc2 d hd hd1 hcd
    have hseq : c.seq ≠ d.seq := fun heq => by
      obtain rfl := List.inj_on_of_nodup_map h.nodup_seq hc hd heq
      omega
    obtain ⟨p, hp, hscore, horder⟩ := exists_mem_pairsOf settings h hsorted hc hd
      hseq (fun h' => by omega) hcd
    have hsingle := proposalOf_eq_single hc2 hd1 horder
    rcases choose_complete settings.maxProposals [] _ hps p (mem_sortPairs.mpr hp) with
      hlisted | hfull
    · simp only [Listed, hsingle, List.not_mem_nil, false_or] at hlisted
      exact .inl hlisted
    · exact .inr (hscore ▸ hfull)

/-- What is ranked does not depend on the order in which the candidates are given. -/
theorem Ranks.perm {settings : Settings} {cs ds : List Candidate} {es : List RankedProposal}
    (h : Ranks settings cs es) (hp : cs.Perm ds) : Ranks settings ds es where
  sorted := h.sorted
  length_le := h.length_le
  pair_sound := by simpa only [hp.mem_iff] using h.pair_sound
  pair_once := h.pair_once
  single_sound := by simpa only [hp.mem_iff] using h.single_sound
  single_best := by simpa only [hp.mem_iff] using h.single_best
  single_once := h.single_once
  pair_complete := by simpa only [hp.mem_iff] using h.pair_complete
  single_complete := by simpa only [hp.mem_iff] using h.single_complete

/-- The ranking of candidates without a memo. -/
def rankingOf (settings : Settings) (cs : List Candidate) : Ranking :=
  let sorted := sortCandidates cs
  let pairs := pairsOf settings sorted
  let n := sorted.length
  { proposals := choose settings.maxProposals [] (sortPairs pairs)
    candidates := n
    pairsScored := pairs.length
    pairsSkipped := n * (n - 1) / 2 - pairs.length
    parallel := settings.parallelThreshold ≤ n }

/-- A memo that can arise changes nothing in the ranking. -/
theorem ofCandidates_eq (settings : Settings) {candidates : Catalogue String Candidate}
    {memo : LikenessMemo} (hm : memo.Reachable)
    (hcs : ∀ c ∈ candidates.values, c.sources.isEmpty = false) :
    ∃ memo' : LikenessMemo, memo'.Reachable ∧
      ofCandidates settings candidates memo = .ok (rankingOf settings candidates.values, memo') := by
  have hsorted : ∀ c ∈ sortCandidates candidates.values, c.sources.isEmpty = false := fun c hc =>
    hcs c ((sortCandidates_perm _).mem_iff.mp hc)
  obtain ⟨memo', heq, hm'⟩ := scorePairs_eq settings hm hsorted
  refine ⟨memo', hm', ?_⟩
  rw [ofCandidates, heq]
  rfl

lemma ranks_rankingOf {settings : Settings} {cs : List Candidate} (h : Rankable cs) :
    Ranks settings cs (rankingOf settings cs).proposals :=
  (ranks_choose (h.perm (sortCandidates_perm cs)) (pairwise_sortCandidates h.nodup_seq)).perm
    (sortCandidates_perm cs)

/-- A survey whose names are distinct has one ranking, which any memo that can arise leads to, and
its proposals are those that must be made. -/
theorem ofCandidates_ranks (settings : Settings) {surveyed : Settings} {trees : Forest} {tables t : Tables}
    {s : Survey} (h : Survey.ofForest surveyed trees tables = (.ok s, t))
    (hids : (s.candidates.values.map Candidate.id).Nodup) :
    ∃ ranking : Ranking, Ranks settings s.candidates.values ranking.proposals ∧
      ∀ memo : LikenessMemo, memo.Reachable → ∃ memo' : LikenessMemo, memo'.Reachable ∧
        ofCandidates settings s.candidates memo = .ok (ranking, memo') := by
  have hrank := rankable_of_ofForest_ok h hids
  exact ⟨rankingOf settings s.candidates.values, ranks_rankingOf hrank, fun memo hm =>
    ofCandidates_eq settings hm hrank.occurs⟩

lemma ids_nestedTrees :
    (Survey.ofForest {} Survey.nestedTrees {}).1.toOption.map
      (fun s => s.candidates.values.map Candidate.id) = some ["t0", "t2", "t4"] := by
  decide +kernel

theorem ofCandidates_ranks_nestedTrees :
    ∃ s t, Survey.ofForest {} Survey.nestedTrees {} = (.ok s, t) ∧
      (s.candidates.values.map Candidate.id).Nodup ∧
      ∃ ranking : Ranking, Ranks {} s.candidates.values ranking.proposals ∧
        ∃ memo' : LikenessMemo, memo'.Reachable ∧
          ofCandidates {} s.candidates .empty = .ok (ranking, memo') := by
  have hvalid : ({} : Settings).Valid := by decide
  have hok := Survey.ofForest_of_no_overflow {} hvalid fun v hv =>
    Survey.withinWords_nestedTrees.overflows_eq_false hv
  have hids := ids_nestedTrees
  rw [hok, Except.toOption, Option.map_some, Option.some.injEq] at hids
  have hnodup := hids ▸ (by decide : ["t0", "t2", "t4"].Nodup)
  obtain ⟨ranking, hranks, hall⟩ := ofCandidates_ranks {} hok hnodup
  exact ⟨_, _, hok, hnodup, ranking, hranks, hall .empty .empty⟩

end Ranking
end GrammarInduction
