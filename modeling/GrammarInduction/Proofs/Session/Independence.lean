import GrammarInduction.Proofs.Ranking.Agreement
import GrammarInduction.Proofs.Session.Builds

/-!
Nothing leaks from one survey into another. What a session did before shows only in the numbers of
its symbols and in its names; surveys of one forest in two sessions hold the same, and so do their
rankings, whatever is done in between and in whatever order the entries are gone through.
-/
namespace GrammarInduction

namespace Catalogue

variable {κ ν : Type} [DecidableEq κ]

def Same (a b : Catalogue κ ν) : Prop := ∀ k, a.get? k = b.get? k

lemma Same.mem_keys_iff {a b : Catalogue κ ν} (h : a.Same b) {k : κ} :
    k ∈ a.keys ↔ k ∈ b.keys := by
  rw [Catalogue.mem_keys_iff, Catalogue.mem_keys_iff, h k]

lemma Same.perm {a b : Catalogue κ ν} (h : a.Same b) : a.entries.Perm b.entries := by
  have hnodup : ∀ c : Catalogue κ ν, c.entries.Nodup := fun c => List.Nodup.of_map _ c.nodup
  rw [List.perm_ext_iff_of_nodup (hnodup a) (hnodup b)]
  rintro ⟨k, v⟩
  rw [← get?_eq_some_iff, ← get?_eq_some_iff, h k]

end Catalogue

/-- The same candidate with its neighbourhoods and its sites in any order. -/
structure Candidate.Reorders (c d : Candidate) : Prop where
  id : c.id = d.id
  elements : c.elements = d.elements
  depth : c.depth = d.depth
  seq : c.seq = d.seq
  occurrences : c.occurrences = d.occurrences
  neighbourhoods : c.neighbourhoods.Same d.neighbourhoods
  sources : c.sources.Same d.sources

/-- The same survey with its candidates, and what they hold, in any order. -/
def Survey.Reorders (s u : Survey) : Prop :=
  ∀ r, Option.Rel Candidate.Reorders (s.candidates.get? r) (u.candidates.get? r)

namespace Candidate

variable {t t' : SymbolTable} {c c' d d' : Candidate}

lemma Reorders.neighbourhoodTotal_eq (h : c.Reorders d) :
    c.neighbourhoodTotal = d.neighbourhoodTotal := by
  rw [neighbourhoodTotal_eq_sum, neighbourhoodTotal_eq_sum]
  exact (h.neighbourhoods.perm.map Prod.snd).sum_eq

lemma Agrees.neighbourhoodTotal_eq (h : c.Agrees t t' c') :
    c.neighbourhoodTotal = c'.neighbourhoodTotal := by
  rw [neighbourhoodTotal_eq_sum, neighbourhoodTotal_eq_sum, Catalogue.values, Catalogue.values,
    h.neighbourhoods.values_eq]

/-- Candidates that agree rank alike in any order. -/
theorem Agrees.ranksLike (h : c.Agrees t t' c') (hd : c.Reorders d) (hd' : c'.Reorders d') :
    RanksLike t t' d d' where
  elements := hd.elements.symm.trans (h.elements.trans hd'.elements)
  depth := hd.depth.symm.trans (h.depth.trans hd'.depth)
  seq := hd.seq.symm.trans (h.seq.trans hd'.seq)
  total := by
    rw [← hd.neighbourhoodTotal_eq, h.neighbourhoodTotal_eq, hd'.neighbourhoodTotal_eq]
  sources site := by rw [← hd.sources site, h.sources, hd'.sources site]
  left x hx := by
    obtain ⟨y, hy, hxy⟩ := h.neighbourhoods.exists_key.1 x (hd.neighbourhoods.mem_keys_iff.mpr hx)
    exact ⟨y, hd'.neighbourhoods.mem_keys_iff.mp hy, hxy⟩
  right y hy := by
    obtain ⟨x, hx, hxy⟩ := h.neighbourhoods.exists_key.2 y (hd'.neighbourhoods.mem_keys_iff.mpr hy)
    exact ⟨x, hd.neighbourhoods.mem_keys_iff.mp hx, hxy⟩

end Candidate

namespace Survey

variable {s u : Survey}

/-- A reordered survey holds the candidates of the survey. -/
theorem Reorders.get?_eq_some (h : s.Reorders u) {r : String} {d : Candidate}
    (hd : u.candidates.get? r = some d) :
    ∃ c, s.candidates.get? r = some c ∧ c.Reorders d := by
  have hr := h r
  rw [hd] at hr
  generalize s.candidates.get? r = o at hr
  cases hr with
  | some hcd => exact ⟨_, rfl, hcd⟩

lemma Reorders.exists_get? (h : s.Reorders u) {r : String} {c : Candidate}
    (hc : s.candidates.get? r = some c) :
    ∃ d, u.candidates.get? r = some d ∧ c.Reorders d := by
  have hr := h r
  rw [hc] at hr
  generalize u.candidates.get? r = o at hr
  cases hr with
  | some hcd => exact ⟨_, rfl, hcd⟩

/-- A reordered survey can be ranked as the survey can. -/
theorem Reorders.rankable (h : s.Reorders u) {settings : Settings} {trees : Forest}
    {tables t : Tables} (hok : ofForest settings trees tables = (.ok s, t))
    (hlt : t.names.next < wordMax) : Ranking.Rankable u.candidates.values where
  length_pos d hd := by
    obtain ⟨r, hr⟩ := (Catalogue.mem_values_iff _).mp hd
    obtain ⟨c, hc, hcd⟩ := h.get?_eq_some hr
    rw [Candidate.length, ← hcd.elements]
    exact length_pos_of_ofForest_ok hok hc
  occurs d hd := by
    obtain ⟨r, hr⟩ := (Catalogue.mem_values_iff _).mp hd
    obtain ⟨c, hc, hcd⟩ := h.get?_eq_some hr
    have hlen := hcd.sources.perm.isEmpty_eq
    exact hlen.symm.trans (occurs_of_ofForest_ok hok hc)
  nodup_seq := by
    refine Catalogue.nodup_values_map _ fun r r' d d' hr hr' heq => ?_
    obtain ⟨c, hc, hcd⟩ := h.get?_eq_some hr
    obtain ⟨c', hc', hcd'⟩ := h.get?_eq_some hr'
    exact eq_of_seq_eq hok hc hc' (hcd.seq.trans (heq.trans hcd'.seq.symm))
  nodup_ids := by
    refine Catalogue.nodup_values_map _ fun r r' d d' hr hr' heq => ?_
    obtain ⟨c, hc, hcd⟩ := h.get?_eq_some hr
    obtain ⟨c', hc', hcd'⟩ := h.get?_eq_some hr'
    exact eq_of_id_eq hok hlt hc hc' (hcd.id.trans (heq.trans hcd'.id.symm))

/-- The candidates of surveys that agree rank alike in any order. -/
theorem Agrees.exists_ranksLike {t t' : SymbolTable} {s' u' : Survey} (h : Agrees t t' s s')
    (hu : s.Reorders u) (hu' : s'.Reorders u') :
    (∀ d ∈ u.candidates.values, ∃ d' ∈ u'.candidates.values, Candidate.RanksLike t t' d d') ∧
      ∀ d' ∈ u'.candidates.values, ∃ d ∈ u.candidates.values, Candidate.RanksLike t t' d d' := by
  have hkeys : ∀ r, r ∈ s.candidates.keys ↔ r ∈ s'.candidates.keys := fun r => by rw [h.keys]
  simp only [Catalogue.mem_keys_iff] at hkeys
  constructor
  · intro d hd
    obtain ⟨r, hr⟩ := (Catalogue.mem_values_iff _).mp hd
    obtain ⟨c, hc, hcd⟩ := hu.get?_eq_some hr
    obtain ⟨c', hc'⟩ := (hkeys r).mp ⟨c, hc⟩
    obtain ⟨d', hd', hcd'⟩ := hu'.exists_get? hc'
    have hagrees := h.candidates r c c' hc hc'
    exact ⟨d', (Catalogue.mem_values_iff _).mpr ⟨r, hd'⟩, hagrees.ranksLike hcd hcd'⟩
  · intro d' hd'
    obtain ⟨r, hr⟩ := (Catalogue.mem_values_iff _).mp hd'
    obtain ⟨c', hc', hcd'⟩ := hu'.get?_eq_some hr
    obtain ⟨c, hc⟩ := (hkeys r).mpr ⟨c', hc'⟩
    obtain ⟨d, hd, hcd⟩ := hu.exists_get? hc
    have hagrees := h.candidates r c c' hc hc'
    exact ⟨d, (Catalogue.mem_values_iff _).mpr ⟨r, hd⟩, hagrees.ranksLike hcd hcd'⟩

end Survey

namespace Session

variable {s s' u u' : Session}

/-- Whatever is done with a session, its labels have one number each. -/
theorem Step.distinct (h : Step s s') (hs : s.tables.symbols.Distinct) :
    s'.tables.symbols.Distinct := by
  cases h with
  | setBounds minLen maxLen h =>
    obtain ⟨-, rfl⟩ := setBounds_eq_ok_iff.mp h
    exact hs
  | clearMemo => exact hs
  | reset => exact SymbolTable.distinct_empty
  | seed examples => exact hs
  | survey trees => exact Survey.distinct_ofForest s.settings trees hs
  | rank survey ranking h =>
    obtain ⟨memo, -, rfl⟩ := rank_eq_ok_iff.mp h
    exact hs

lemma Reachable.distinct (h : s.Reachable) : s.tables.symbols.Distinct := by
  obtain ⟨settings, names, s₀, hstart, hsteps⟩ := h
  induction hsteps with
  | refl =>
    obtain ⟨-, rfl⟩ := start_eq_ok_iff.mp hstart
    exact SymbolTable.distinct_empty
  | tail _ hstep ih => exact hstep.distinct ih

/-- What a ranking takes from the settings is never changed. -/
theorem Steps.sameScoring (h : Steps s s') : Ranking.SameScoring s.settings s'.settings := by
  induction h with
  | refl => exact ⟨rfl, rfl, rfl⟩
  | tail _ hstep ih =>
    cases hstep with
    | setBounds minLen maxLen h =>
      obtain ⟨-, rfl⟩ := setBounds_eq_ok_iff.mp h
      exact ⟨ih.pairDepth, ih.pairSize, ih.maxProposals⟩
    | clearMemo => exact ih
    | reset => exact ih
    | seed examples => exact ih
    | survey trees => exact ih
    | rank survey ranking h =>
      obtain ⟨memo, -, rfl⟩ := rank_eq_ok_iff.mp h
      exact ih

lemma sameScoring_of_agrees {a b : Settings} (h : a.Agrees b) : Ranking.SameScoring a b := by
  rw [h]
  exact ⟨rfl, rfl, rfl⟩

/-- A ranking of a reordered survey is that of its candidates, whatever was done since. -/
theorem exists_rank {trees : Forest} {survey v : Survey} (hs : s.Reachable)
    (hok : (s.survey trees).1 = .ok survey)
    (hlt : (s.survey trees).2.tables.names.next < wordMax) (hu : Steps (s.survey trees).2 u)
    (hv : survey.Reorders v) :
    Ranking.Rankable v.candidates.values ∧
      ∃ w, u.rank v = .ok (Ranking.rankingOf u.settings v.candidates.values, w) := by
  have hrankable := hv.rankable (Prod.ext hok rfl) hlt
  have hreachable : u.Reachable := (hs.step (.survey s trees)).steps hu
  obtain ⟨memo, -, heq⟩ := Ranking.ofCandidates_eq u.settings hreachable.memo hrankable.occurs
  exact ⟨hrankable, _, rank_eq_ok_iff.mpr ⟨memo, heq, rfl⟩⟩

/-- Surveys of one forest in two sessions with the same settings agree, and so do their rankings at
any later time, whatever the sessions did before and do in between. -/
theorem survey_and_rank_independent (hs : s.Reachable) (hs' : s'.Reachable)
    (hsettings : s.settings.Agrees s'.settings) (trees : Forest)
    (hlt : (s.survey trees).2.tables.names.next < wordMax)
    (hlt' : (s'.survey trees).2.tables.names.next < wordMax) :
    (∃ failure, (s.survey trees).1 = .error failure ∧ (s'.survey trees).1 = .error failure) ∨
    ∃ survey survey', (s.survey trees).1 = .ok survey ∧ (s'.survey trees).1 = .ok survey' ∧
      Survey.Agrees (s.survey trees).2.tables.symbols (s'.survey trees).2.tables.symbols
        survey survey' ∧
      ∀ u u', Steps (s.survey trees).2 u → Steps (s'.survey trees).2 u' →
        ∀ v v', survey.Reorders v → survey'.Reorders v' →
          ∃ ranking ranking' w w', u.rank v = .ok (ranking, w) ∧ u'.rank v' = .ok (ranking', w') ∧
            List.Forall₂ Ranking.ReadsLike ranking.proposals ranking'.proposals := by
  rcases Survey.agrees_ofForest hsettings trees hs.distinct hs'.distinct with
    hfail | ⟨survey, survey', hok, hok', hagrees⟩
  · exact .inl hfail
  · refine .inr ⟨survey, survey', hok, hok', hagrees, ?_⟩
    intro u u' hu hu' v v' hv hv'
    obtain ⟨hrankable, w, hrank⟩ := exists_rank hs hok hlt hu hv
    obtain ⟨hrankable', w', hrank'⟩ := exists_rank hs' hok' hlt' hu' hv'
    obtain ⟨hleft, hright⟩ := hagrees.exists_ranksLike hv hv'
    have hleads : Ranking.SameScoring s.settings u.settings :=
      Steps.sameScoring (.head (.survey s trees) hu)
    have hleads' : Ranking.SameScoring s'.settings u'.settings :=
      Steps.sameScoring (.head (.survey s' trees) hu')
    have hscoring := hleads.symm.trans ((sameScoring_of_agrees hsettings).trans hleads')
    have hdistinct : (s.survey trees).2.tables.symbols.Distinct :=
      (Step.survey s trees).distinct hs.distinct
    have hdistinct' : (s'.survey trees).2.tables.symbols.Distinct :=
      (Step.survey s' trees).distinct hs'.distinct
    exact ⟨_, _, w, w', hrank, hrank', Ranking.rankingOf_rel hscoring hdistinct hdistinct'
      hrankable hrankable' hleft hright⟩

/-- A session with other names and another threshold that surveyed another forest. -/
def usedSession : Session :=
  (({ settings := { parallelThreshold := 1 }, tables := { names := ⟨"x", 7⟩ } } : Session).survey
    Survey.nestedTrees).2

lemma reachable_usedSession : usedSession.Reachable :=
  ⟨{ parallelThreshold := 1 }, ⟨"x", 7⟩, _, start_eq_ok_iff.mpr ⟨by decide, rfl⟩,
    .single (.survey _ Survey.nestedTrees)⟩

theorem survey_and_rank_independent_tripleTree :
    (tripleSession.survey tripleTree).2.tables.names.next < wordMax ∧
    (usedSession.survey tripleTree).2.tables.names.next < wordMax ∧
    ∃ survey survey', (tripleSession.survey tripleTree).1 = .ok survey ∧
      (usedSession.survey tripleTree).1 = .ok survey' ∧
      Survey.Agrees (tripleSession.survey tripleTree).2.tables.symbols
        (usedSession.survey tripleTree).2.tables.symbols survey survey' ∧
      ∀ u u', Steps (tripleSession.survey tripleTree).2 u →
        Steps (usedSession.survey tripleTree).2 u' →
        ∀ v v', survey.Reorders v → survey'.Reorders v' →
          ∃ ranking ranking' w w', u.rank v = .ok (ranking, w) ∧
            u'.rank v' = .ok (ranking', w') ∧
            List.Forall₂ Ranking.ReadsLike ranking.proposals ranking'.proposals := by
  have hlt : (tripleSession.survey tripleTree).2.tables.names.next < wordMax := by decide +kernel
  have hlt' : (usedSession.survey tripleTree).2.tables.names.next < wordMax := by decide +kernel
  have hreachable : tripleSession.Reachable :=
    ⟨{}, {}, {}, start_eq_ok_iff.mpr ⟨by decide, rfl⟩, .single (.seed _ _)⟩
  refine ⟨hlt, hlt', (survey_and_rank_independent hreachable reachable_usedSession rfl tripleTree
    hlt hlt').resolve_left ?_⟩
  rintro ⟨failure, hfail, -⟩
  have hok : (tripleSession.survey tripleTree).1.toOption.isSome = true := by decide +kernel
  rw [hfail] at hok
  cases hok

end Session
end GrammarInduction
