import GrammarInduction.Proofs.Session.Proposals

/-!
The induction makes progress. After a proposal was applied the labels of its candidates stand in
whole child lists only, where no survey keeps them, so the same runs are not found again.
-/
namespace GrammarInduction

/-- Labels that stand in no longer list are found as whole child lists only. -/
theorem Forest.OnlyWhole.isWhole {trees : Forest} {name : Nat → String} {m : Glossary}
    {q : List String} (honly : trees.OnlyWhole q) (ht : trees.Named name m) {p : Survey.Place}
    (hsite : ∃ n, trees.descend? p.site = some n) (hfits : p.run.stop ≤ (p.children trees).length)
    (hlabels : labels (p.elements trees) = q) : p.IsWhole trees := by
  obtain ⟨n, hn⟩ := hsite
  have hlen := Survey.Place.length_elements hfits
  rw [Survey.Place.IsWhole]
  rw [Survey.Place.children_of_descend? hn] at hfits ⊢
  by_contra hwhole
  refine honly (ht.usesRule_iff_descend?.mpr ⟨p.site, n, hn, ?_, ?_⟩)
  · rw [← hlabels, labels, labels, Survey.Place.elements, Survey.Place.children_of_descend? hn,
      Run.elements]
    exact ((List.take_prefix _ _).isInfix.trans (List.drop_suffix _ _).isInfix).map _
  · rintro rfl
    have hcount := congrArg List.length hlabels
    rw [labels, labels, List.length_map, List.length_map, hlen] at hcount
    rw [Run.stop] at hfits hwhole
    omega

namespace Session

variable {s s₁ s₂ s₃ : Session} {trees out : Forest} {survey : Survey} {m : Glossary}

namespace Surveyed

variable (h : Surveyed s trees survey s₁ m)

include h

lemma exists_applyProposal {settings : Settings} {es : List RankedProposal}
    (hranks : Ranking.Ranks settings survey.candidates.values es) {e : RankedProposal}
    (he : e ∈ es) : ∃ out, trees.applyProposal e.proposal = .ok out := by
  cases hp : e.proposal with
  | single a =>
    obtain ⟨ha, -⟩ := hranks.single_sound e he a hp
    obtain ⟨out, hout⟩ := h.exists_applyCandidate ha trees
    exact ⟨out, Forest.applyProposal_single_eq_ok_iff.mpr hout⟩
  | pair a b =>
    obtain ⟨ha, hb, -⟩ := hranks.pair_sound e he a b hp
    obtain ⟨_, out, -, -, happly⟩ := h.exists_applyPair ha hb
    exact ⟨out, happly⟩

/-- The labels of the candidates of an applied proposal stand in no longer lists. -/
theorem onlyWhole_of_applyProposal {settings : Settings} {es : List RankedProposal}
    (hranks : Ranking.Ranks settings survey.candidates.values es) {e : RankedProposal}
    (he : e ∈ es) (happly : trees.applyProposal e.proposal = .ok out) :
    ∀ c ∈ e.proposal.candidates, c ∈ survey.candidates.values ∧
      out.OnlyWhole c.grouping.pattern := by
  intro c hc
  cases hp : e.proposal with
  | single a =>
    obtain ⟨ha, -⟩ := hranks.single_sound e he a hp
    rw [hp] at hc happly
    obtain rfl := List.mem_singleton.mp hc
    exact ⟨ha, Grouping.onlyWhole_pattern (h.pattern_ne_nil ha) (h.id_not_mem_pattern ha ha)
      (Forest.applyProposal_single_eq_ok_iff.mp happly)⟩
  | pair a b =>
    obtain ⟨ha, hb, -⟩ := hranks.pair_sound e he a b hp
    rw [hp] at hc happly
    obtain ⟨mid, hmid, hout⟩ := Forest.applyProposal_pair_eq_ok_iff.mp happly
    rcases List.mem_cons.mp hc with rfl | hc
    · -- The second candidate has a new name too, so it makes no new runs of the first one.
      have honly := Grouping.onlyWhole_pattern (h.pattern_ne_nil ha) (h.id_not_mem_pattern ha ha) hmid
      exact ⟨ha, Grouping.onlyWhole_of_apply (h.pattern_ne_nil hb) (h.id_not_mem_pattern hb hb)
        (h.id_not_mem_pattern hb ha) (h.pattern_ne_nil ha) hout honly⟩
    · obtain rfl := List.mem_singleton.mp hc
      exact ⟨hb, Grouping.onlyWhole_pattern (h.pattern_ne_nil hb) (h.id_not_mem_pattern hb hb) hout⟩

/-- A survey finds no candidate again whose labels stand in no longer lists. -/
theorem rendered_ne_of_onlyWhole {m' : Glossary} {c d : Candidate}
    (hc : c ∈ survey.candidates.values) (honly : out.OnlyWhole c.grouping.pattern)
    (hnamed : out.Named s.tables.names.nameAt m') {settings : Settings} {tables t : Tables}
    {next : Survey} (hok : Survey.ofForest settings out tables = (.ok next, t))
    (hd : d ∈ next.candidates.values) : d.rendered ≠ c.rendered := by
  intro hrendered
  obtain ⟨r, hr⟩ := (Catalogue.mem_values_iff _).mp hd
  obtain ⟨p, hp, hpr, hwhole⟩ := Survey.exists_place_not_whole hok hr
  have hpos : 0 < p.run.len := (Survey.no_overflow_of_ofForest_ok hok).1.pos_of_admits hp.length
  have hlabels : Forest.labels (p.elements out) = c.grouping.pattern := by
    refine NameSupply.eq_of_join_eq h.marked
      (Survey.isNames_labels (Survey.named_elements_of_admissible hnamed hp hpos))
      (Survey.isNames_labels (h.named_elements hc)) ?_
    exact (hpr.trans (Survey.holdsPlaces_of_ofForest_ok hok hr).rendered.symm).trans hrendered
  exact hwhole (honly.isWhole hnamed hp.atSite hp.fits hlabels)

end Surveyed

/-- A proposal that was ranked for a built forest can be applied, and no survey of the result, with
whatever settings and names, has a candidate with the joined labels of an applied one. -/
theorem applied_candidates_vanish {ranking : Ranking} {e : RankedProposal}
    (hbuilds : s.Builds trees) (hsurvey : s.survey trees = (.ok survey, s₁))
    (hlt : s₁.tables.names.next < wordMax) (hsteps : Steps s₁ s₂)
    (hrank : s₂.rank survey = .ok (ranking, s₃)) (he : e ∈ ranking.proposals) :
    ∃ out, trees.applyProposal e.proposal = .ok out ∧
      ∀ settings tables, settings.check = .ok settings → Survey.WithinWords settings out →
        ∃ next t, Survey.ofForest settings out tables = (.ok next, t) ∧
          ∀ c ∈ e.proposal.candidates, ∀ d ∈ next.candidates.values, d.rendered ≠ c.rendered := by
  obtain ⟨m, h⟩ := hbuilds.exists_surveyed hsurvey hlt
  have hranks := hbuilds.ranks hsurvey hlt hsteps hrank
  obtain ⟨out, happly⟩ := h.exists_applyProposal hranks he
  obtain ⟨m', -, hnamed⟩ := named_applyProposal h.below h.named hsurvey hlt hranks he happly
  refine ⟨out, happly, fun settings tables hcheck hwords => ?_⟩
  have hok := Survey.ofForest_of_withinWords tables (Settings.check_eq_ok_iff.mp hcheck).2 hwords
  refine ⟨_, _, hok, fun c hc d hd => ?_⟩
  obtain ⟨hmem, honly⟩ := h.onlyWhole_of_applyProposal hranks he happly c hc
  exact h.rendered_ne_of_onlyWhole hmem honly hnamed hok hd

/-- After the pair of the alternating tokens was applied, a survey with other settings finds neither
run again. -/
theorem applied_candidates_vanish_zigzagTree : ∃ s₁ ranking s₃ e out next t,
    Builds zigzagSession zigzagTree ∧
    zigzagSession.survey zigzagTree = (.ok zigzagSurvey, s₁) ∧ s₁.tables.names.next < wordMax ∧
    Steps s₁ s₁ ∧ s₁.rank zigzagSurvey = .ok (ranking, s₃) ∧ e ∈ ranking.proposals ∧
    zigzagTree.applyProposal e.proposal = .ok out ∧ ({} : Settings).check = .ok {} ∧
    Survey.WithinWords {} out ∧ Survey.ofForest {} out {} = (.ok next, t) ∧
    ∀ c ∈ e.proposal.candidates, ∀ d ∈ next.candidates.values, d.rendered ≠ c.rendered := by
  obtain ⟨s₁, hsurvey, hlt⟩ := exists_survey_zigzagTree
  obtain ⟨ranking, s₃, e, a, b, hrank, he, -, -, hgrouped⟩ := exists_rank_zigzagTree hsurvey hlt
  obtain ⟨out, happly, hnext⟩ :=
    applied_candidates_vanish builds_zigzagTree hsurvey hlt .refl hrank he
  obtain rfl : groupedZigzag = out := Except.ok.inj (hgrouped.symm.trans happly)
  have hwords : Survey.WithinWords {} groupedZigzag :=
    Survey.withinWords_of_le (by decide +kernel)
  obtain ⟨next, t, hok, hvanish⟩ := hnext {} {} rfl hwords
  exact ⟨s₁, ranking, s₃, e, _, next, t, builds_zigzagTree, hsurvey, hlt, .refl, hrank, he, happly,
    rfl, hwords, hok, hvanish⟩

end Session
end GrammarInduction
