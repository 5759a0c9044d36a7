import GrammarInduction.Proofs.Forest.Seeding
import GrammarInduction.Proofs.Ranking.Proposals
import GrammarInduction.Proofs.Session.Histories
import GrammarInduction.Proofs.Survey.Matching

/-!
The forests that sessions build. They begin with examples, and then candidates of a survey are
applied as a ranking proposes them; every forest on the way is named, so that surveys record the
runs that groupings match.
-/
namespace GrammarInduction
namespace Session

/-- A session builds a first forest from examples, and further ones by applying a proposal from a
ranking of a survey of the forest before. Anything else can be done with it in between. -/
inductive Builds : Session → Forest → Prop
  | seed {s : Session} (hs : s.Reachable) (hmarked : s.tables.names.Marked)
      (examples : List (List String)) : Builds (s.seed examples).2 (s.seed examples).1
  | step {s s' : Session} {trees : Forest} (h : Builds s trees) (hstep : Step s s') :
      Builds s' trees
  | apply {s s₁ s₂ s₃ : Session} {trees out : Forest} {survey : Survey} {ranking : Ranking}
      {e : RankedProposal} (h : Builds s trees) (hsurvey : s.survey trees = (.ok survey, s₁))
      (hsteps : Steps s₁ s₂) (hrank : s₂.rank survey = .ok (ranking, s₃))
      (he : e ∈ ranking.proposals) (happly : trees.applyProposal e.proposal = .ok out) :
      Builds s₃ out

/-- What holds of a session and the forest that it builds. -/
structure Keeps (s : Session) (trees : Forest) : Prop where
  reachable : s.Reachable
  marked : s.tables.names.Marked
  named : ∃ m : Glossary, m.Below s.tables.names.next ∧ trees.Named s.tables.names.nameAt m

variable {s s' s₁ s₂ s₃ : Session} {trees out : Forest} {survey : Survey} {ranking : Ranking}

lemma survey_eq_ok_iff :
    s.survey trees = (.ok survey, s₁) ↔
      ∃ t, Survey.ofForest s.settings trees s.tables = (.ok survey, t) ∧
        s₁ = { s with tables := t } := by
  rw [Session.survey]
  cases Survey.ofForest s.settings trees s.tables with
  | mk result t =>
    simp only [Prod.mk.injEq]
    constructor
    · rintro ⟨rfl, rfl⟩
      exact ⟨t, ⟨rfl, rfl⟩, rfl⟩
    · rintro ⟨_, ⟨rfl, rfl⟩, rfl⟩
      exact ⟨rfl, rfl⟩

lemma step_survey (h : s.survey trees = (.ok survey, s₁)) : Step s s₁ := by
  have hs : s₁ = (s.survey trees).2 := by rw [h]
  exact hs ▸ .survey s trees

lemma marked_of_leadsTo {a b : NameSupply} (h : a.LeadsTo b) (ha : a.Marked) : b.Marked := by
  rw [NameSupply.Marked, h.1]
  exact ha

lemma Keeps.step (h : Keeps s trees) (hstep : Step s s') (hlt : s'.tables.names.next < wordMax) :
    Keeps s' trees := by
  obtain ⟨m, hm, hnamed⟩ := h.named
  refine ⟨h.reachable.step hstep, marked_of_leadsTo hstep.leadsTo h.marked, m,
    hm.mono (hstep.leadsTo.2 hlt), ?_⟩
  rw [hstep.leadsTo.nameAt_eq]
  exact hnamed

lemma nodup_ids_of_survey (hsurvey : s.survey trees = (.ok survey, s₁))
    (hlt : s₁.tables.names.next < wordMax) :
    (survey.candidates.values.map Candidate.id).Nodup := by
  obtain ⟨t, hok, rfl⟩ := survey_eq_ok_iff.mp hsurvey
  exact Catalogue.nodup_values_map _ fun _ _ _ _ => Survey.eq_of_id_eq hok hlt

lemma rankable_of_survey (hsurvey : s.survey trees = (.ok survey, s₁))
    (hlt : s₁.tables.names.next < wordMax) : Ranking.Rankable survey.candidates.values := by
  have hids := nodup_ids_of_survey hsurvey hlt
  obtain ⟨t, hok, rfl⟩ := survey_eq_ok_iff.mp hsurvey
  exact Ranking.rankable_of_ofForest_ok hok hids

/-- Whatever was done since the survey, its ranking is the same. -/
theorem ranks_of_rank (hsurvey : s.survey trees = (.ok survey, s₁))
    (hlt : s₁.tables.names.next < wordMax) (hs : s₂.Reachable)
    (hrank : s₂.rank survey = .ok (ranking, s₃)) :
    Ranking.Ranks s₂.settings survey.candidates.values ranking.proposals := by
  have hrankable := rankable_of_survey hsurvey hlt
  obtain ⟨memo, heq, rfl⟩ := rank_eq_ok_iff.mp hrank
  obtain ⟨memo', -, heq'⟩ := Ranking.ofCandidates_eq s₂.settings hs.memo
    hrankable.occurs
  obtain rfl : ranking = Ranking.rankingOf s₂.settings survey.candidates.values :=
    (Prod.mk.inj (Except.ok.inj (heq.symm.trans heq'))).1
  exact Ranking.ranks_rankingOf hrankable

/-- A candidate of two elements or more has a new name, and its grouping fits every glossary that
gives this name its text. -/
theorem fits_of_survey {m : Glossary} (hnamed : trees.Named s.tables.names.nameAt m)
    (hsurvey : s.survey trees = (.ok survey, s₁)) (hlt : s₁.tables.names.next < wordMax)
    {c : Candidate} (hc : c ∈ survey.candidates.values) (h2 : 2 ≤ c.length) :
    ∃ k, c.id = s.tables.names.nameAt k ∧ s.tables.names.next ≤ k ∧ k < s₁.tables.names.next ∧
      ∀ m', m.Within m' → m' k = some (String.join (c.elements.map Node.text)) →
        c.grouping.Fits s.tables.names.nameAt m' := by
  obtain ⟨r, hr⟩ := (Catalogue.mem_values_iff _).mp hc
  obtain ⟨t, hok, rfl⟩ := survey_eq_ok_iff.mp hsurvey
  obtain ⟨hid, hk⟩ := Survey.id_of_ofForest_ok hok hlt hr
  obtain ⟨p, hp, -, hpel, -, hpos⟩ := Survey.exists_place_of_ofForest_ok hok hr
  have helements := Survey.named_elements_of_admissible hnamed hp hpos
  rw [hpel] at helements
  refine ⟨_, hid, Nat.le_add_right _ _, hk, fun m' hw hm' => ⟨?_, c.elements, _, ?_, rfl, hid, hm'⟩⟩
  · rw [Candidate.length] at h2
    simpa [Candidate.grouping, Forest.labels] using h2
  · exact fun e he => (helements e he).mono hw

lemma named_applyProposal {m : Glossary} (hm : m.Below s.tables.names.next)
    (hnamed : trees.Named s.tables.names.nameAt m) (hsurvey : s.survey trees = (.ok survey, s₁))
    (hlt : s₁.tables.names.next < wordMax) {settings : Settings} {es : List RankedProposal}
    (hranks : Ranking.Ranks settings survey.candidates.values es) {e : RankedProposal} (he : e ∈ es)
    (happly : trees.applyProposal e.proposal = .ok out) :
    ∃ m' : Glossary, m'.Below s₁.tables.names.next ∧ out.Named s.tables.names.nameAt m' := by
  have hname : Function.Injective s.tables.names.nameAt := fun _ _ => NameSupply.nameAt_injective
  have hnext : s.tables.names.next ≤ s₁.tables.names.next :=
    (step_survey hsurvey).leadsTo.2 hlt
  cases hp : e.proposal with
  | single c =>
    obtain ⟨hc, h2, -⟩ := hranks.single_sound e he c hp
    obtain ⟨k, -, hk, hkt, hfits⟩ := fits_of_survey hnamed hsurvey hlt hc h2
    have hw := Glossary.within_add (hm.eq_none hk) (String.join (c.elements.map Node.text))
    rw [hp] at happly
    obtain ⟨mid, hmid, hout⟩ := Except.bind_eq_ok_iff.mp happly
    obtain rfl := Except.ok.inj hout
    exact ⟨_, hm.add hnext hkt, (hfits _ hw Glossary.add_self).apply hname (hnamed.mono hw) hmid⟩
  | pair a b =>
    obtain ⟨ha, hb, ha2, hb2, hne, -⟩ := hranks.pair_sound e he a b hp
    obtain ⟨j, haj, hj, hjt, hfitsa⟩ := fits_of_survey hnamed hsurvey hlt ha ha2
    obtain ⟨k, hbk, hk, hkt, hfitsb⟩ := fits_of_survey hnamed hsurvey hlt hb hb2
    have hjk : k ≠ j := by
      rintro rfl
      exact hne (haj.trans hbk.symm)
    have hwa := Glossary.within_add (hm.eq_none hj) (String.join (a.elements.map Node.text))
    have hnone : m.add j (String.join (a.elements.map Node.text)) k = none :=
      (Glossary.add_of_ne hjk).trans (hm.eq_none hk)
    have hwb := Glossary.within_add hnone (String.join (b.elements.map Node.text))
    have hwab := hwa.trans hwb
    rw [hp] at happly
    obtain ⟨mid, hmid, happly⟩ := Except.bind_eq_ok_iff.mp happly
    obtain ⟨last, hlast, hout⟩ := Except.bind_eq_ok_iff.mp happly
    obtain rfl := Except.ok.inj hout
    have hmidNamed := (hfitsa _ hwab (hwb _ _ Glossary.add_self)).apply hname (hnamed.mono hwab) hmid
    exact ⟨_, (hm.add hnext hjt).add (Nat.le_refl _) hkt,
      (hfitsb _ hwab Glossary.add_self).apply hname hmidNamed hlast⟩

/-- As long as the counter of names is below its limit, built forests are named. -/
theorem Builds.keeps (h : s.Builds trees) (hlt : s.tables.names.next < wordMax) :
    Keeps s trees := by
  induction h with
  | @seed s hs hmarked examples =>
    have hstep : Step s (s.seed examples).2 := .seed s examples
    have hempty : Glossary.Below (fun _ => none) s.tables.names.next := fun _ _ h => nomatch h
    obtain ⟨m, -, hm, hnamed⟩ := growsTo_seedForest hempty hlt
    refine ⟨hs.step hstep, marked_of_leadsTo hstep.leadsTo hmarked, m, hm, ?_⟩
    rw [hstep.leadsTo.nameAt_eq]
    exact hnamed
  | step _ hstep ih => exact (ih (hstep.leadsTo.lt_of_lt hlt)).step hstep hlt
  | @apply s s₁ s₂ s₃ trees out survey ranking e _ hsurvey hsteps hrank he happly ih =>
    have hrankStep : Step s₂ s₃ := .rank survey ranking hrank
    have h1 := (step_survey hsurvey).leadsTo
    have h13 : s₁.tables.names.LeadsTo s₃.tables.names :=
      (Steps.leadsTo hsteps).trans hrankStep.leadsTo
    have hlt1 := h13.lt_of_lt hlt
    have hkeeps := ih (h1.lt_of_lt hlt1)
    obtain ⟨m, hm, hnamed⟩ := hkeeps.named
    have hs₂ := (hkeeps.reachable.step (step_survey hsurvey)).steps hsteps
    obtain ⟨m', hm', hout⟩ := named_applyProposal hm hnamed hsurvey hlt1
      (ranks_of_rank hsurvey hlt1 hs₂ hrank) he happly
    refine ⟨hs₂.step hrankStep, marked_of_leadsTo (h1.trans h13) hkeeps.marked, m',
      hm'.mono (h13.2 hlt), ?_⟩
    rw [(h1.trans h13).nameAt_eq]
    exact hout

/-- In a survey of a built forest, a candidate of two elements or more is recorded exactly at the
runs that its grouping matches, once each, and all of these have its text. -/
theorem survey_records_matches (hbuilds : s.Builds trees) (hlt : s.tables.names.next < wordMax)
    (hsurvey : s.survey trees = (.ok survey, s₁)) {r : String} {c : Candidate}
    (hc : survey.candidates.get? r = some c) (h2 : 2 ≤ c.length) (site : Site) :
    (c.spansAt site).Nodup ∧ ∀ span,
      (span ∈ c.spansAt site ↔ ∃ run, c.RunAt trees site span run) ∧
        ∀ run, c.RunAt trees site span run → Forest.text run = c.text := by
  have hkeeps := hbuilds.keeps hlt
  obtain ⟨m, -, hnamed⟩ := hkeeps.named
  obtain ⟨t, hok, rfl⟩ := survey_eq_ok_iff.mp hsurvey
  exact ⟨(Survey.holdsPlaces_of_ofForest_ok hok hc).nodup_spansAt site, fun span =>
    Survey.recorded_iff_runAt hkeeps.marked hnamed hok hc h2 site span⟩

/-- A session with valid settings builds forests from examples. -/
theorem builds_seed {settings : Settings} (h : settings.Valid) (examples : List (List String)) :
    Builds (({ settings } : Session).seed examples).2 (({ settings } : Session).seed examples).1 := by
  have hmarked : NameSupply.Marked {} := ⟨'t', by decide, by decide⟩
  exact .seed ⟨settings, {}, _, start_eq_ok_iff.mpr ⟨h, rfl⟩, .refl⟩ hmarked examples

def tripleSession : Session := (({} : Session).seed [["a", "a", "a"]]).2

def tripleTree : Forest := (({} : Session).seed [["a", "a", "a"]]).1

lemma builds_tripleTree : Builds tripleSession tripleTree := builds_seed (by decide) _

/-- Two of three equal tokens make a candidate that is recorded where it matches, also at spans
that overlap. -/
theorem survey_records_matches_tripleTree : ∃ survey s₁ c, Builds tripleSession tripleTree ∧
    tripleSession.tables.names.next < wordMax ∧
    tripleSession.survey tripleTree = (.ok survey, s₁) ∧
    survey.candidates.get? "t0t0" = some c ∧ 2 ≤ c.length ∧ ∀ site,
      (c.spansAt site).Nodup ∧ ∀ span,
        (span ∈ c.spansAt site ↔ ∃ run, c.RunAt tripleTree site span run) ∧
          ∀ run, c.RunAt tripleTree site span run → Forest.text run = c.text := by
  have hvalid : ({} : Settings).Valid := by decide
  have hwords : Survey.WithinWords {} tripleTree := Survey.withinWords_of_le (by decide +kernel)
  have hlt : tripleSession.tables.names.next < wordMax := by decide +kernel
  have hok := Survey.ofForest_of_no_overflow tripleSession.tables hvalid fun v hv =>
    hwords.overflows_eq_false hv
  have hlength : ((tripleTree.visits.foldl (Survey.Progress.enter {})
      { tables := tripleSession.tables }).finish.candidates.get? "t0t0").map Candidate.length =
        some 2 := by decide +kernel
  obtain ⟨c, hc, hlen⟩ := Option.map_eq_some_iff.mp hlength
  have hsurvey := (survey_eq_ok_iff (s := tripleSession)).mpr ⟨_, hok, rfl⟩
  exact ⟨_, _, c, builds_tripleTree, hlt, hsurvey, hc, hlen.ge, fun site =>
    survey_records_matches builds_tripleTree hlt hsurvey hc hlen.ge site⟩

end Session
end GrammarInduction
