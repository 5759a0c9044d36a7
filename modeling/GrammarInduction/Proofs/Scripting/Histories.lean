import GrammarInduction.Proofs.Ranking.Totals
import GrammarInduction.Proofs.Session.Names
import GrammarInduction.Proofs.Session.Safety
import GrammarInduction.Scripting.Session

/-!
Histories of a script's calls. Next to the session a history remembers what its last successful
proposal kept and ranked, and all candidates that were ever found; the session knows the kept ones
by their names, and it never hands out a name for two of them.
-/
namespace GrammarInduction
namespace Scripting

inductive Request
  | seed (examples : Value)
  | propose (trees : Value)
  | apply (trees ids : Value)
  | setBounds (minLen maxLen : Value)
  | clearMemo
  | reset

namespace ScriptSession

variable (s : ScriptSession)

/-- The session after a call. A call that fails leaves it as it was, but for the symbols and names
that a proposal took before it failed. -/
def after : Request → ScriptSession
  | .seed examples =>
    match s.seed examples with
    | .ok (_, s') => s'
    | .error _ => s
  | .propose trees => (s.propose trees).2
  -- What an application makes of a forest does not stay with the session.
  | .apply _ _ => s
  | .setBounds minLen maxLen =>
    match s.setBounds minLen maxLen with
    | .ok s' => s'
    | .error _ => s
  | .clearMemo => s.clearMemo
  | .reset => s.reset

/-- The survey and the ranking of a proposal, if it succeeds. -/
def outcome? (trees : Value) : Option (Survey × Ranking) :=
  match trees.toForest with
  | .error _ => none
  | .ok trees =>
    match s.session.survey trees with
    | (.error _, _) => none
    | (.ok survey, session) =>
      match session.rank survey with
      | .error _ => none
      | .ok (ranking, _) => some (survey, ranking)

/-- The candidates that a call finds, also those that are dropped and those of a proposal that
fails later on. -/
def foundBy : Request → List Candidate
  | .propose trees =>
    match trees.toForest with
    | .error _ => []
    | .ok trees => (Survey.found s.session.settings trees s.session.tables).values
  | _ => []

def namesOf : Request → List String
  | .seed examples =>
    match examples.toTextLists with
    | .error _ => []
    | .ok examples => seedNames s.session.tables.names examples
  | request => (s.foundBy request).map Candidate.id

/-- Bounds change if both of them are numbers and the settings stay valid. -/
theorem setBounds_eq_ok_iff {s s' : ScriptSession} {minLen maxLen : Value} :
    s.setBounds minLen maxLen = .ok s' ↔
      ∃ lo hi, minLen.toNat = .ok lo ∧ maxLen.toNat = .ok hi ∧
        ({ s.session.settings with minLen := lo, maxLen := hi } : Settings).Valid ∧
        s' = { s with session := { s.session with
          settings := { s.session.settings with minLen := lo, maxLen := hi } } } := by
  constructor
  · intro h
    obtain ⟨lo, hlo, h⟩ := Except.bind_eq_ok_iff.mp h
    obtain ⟨hi, hhi, h⟩ := Except.bind_eq_ok_iff.mp h
    obtain ⟨session, hsession, h⟩ := Except.bind_eq_ok_iff.mp h
    obtain ⟨hv, rfl⟩ := Session.setBounds_eq_ok_iff.mp (Except.mapError_eq_ok_iff.mp hsession)
    exact ⟨lo, hi, hlo, hhi, hv, (Except.ok.inj h).symm⟩
  · rintro ⟨lo, hi, hlo, hhi, hv, rfl⟩
    rw [setBounds, hlo, hhi]
    dsimp only [bind, Except.bind]
    rw [Session.setBounds_eq_ok_iff.mpr ⟨hv, rfl⟩]
    rfl

/-- What a proposal can come to: its value is no forest, or it fails after the survey took its
symbols and names, or it succeeds. -/
theorem propose_cases (trees : Value) :
    (∃ e, trees.toForest = .error e ∧ s.outcome? trees = none ∧ s.propose trees = (.error e, s)) ∨
      (∃ forest e, trees.toForest = .ok forest ∧ s.outcome? trees = none ∧
        s.propose trees = (.error e, { s with session := (s.session.survey forest).2 })) ∨
      ∃ forest survey ranking session session', trees.toForest = .ok forest ∧
        s.session.survey forest = (.ok survey, session) ∧
        session.rank survey = .ok (ranking, session') ∧
        s.outcome? trees = some (survey, ranking) ∧
        s.propose trees = (.ok (ranking.proposals.map ProposalView.of),
          { session := session', known := knownBy survey }) := by
  cases htrees : trees.toForest with
  | error e => exact .inl ⟨e, rfl, by simp [outcome?, htrees], by simp [propose, htrees]⟩
  | ok forest =>
    refine .inr ?_
    cases hsurvey : s.session.survey forest with
    | mk result session =>
      cases result with
      | error failure =>
        refine .inl ⟨forest, ?_⟩
        cases failure <;> exact ⟨_, rfl, by simp [outcome?, htrees, hsurvey],
          by simp [propose, proposeForest, htrees, hsurvey]; rfl⟩
      | ok survey =>
        cases hrank : session.rank survey with
        | error fault =>
          exact .inl ⟨forest, _, rfl, by simp [outcome?, htrees, hsurvey, hrank],
            by simp [propose, proposeForest, htrees, hsurvey, hrank]; rfl⟩
        | ok out =>
          exact .inr ⟨forest, survey, out.1, session, out.2, rfl, hsurvey, hrank,
            by simp [outcome?, htrees, hsurvey, hrank],
            by simp [propose, proposeForest, htrees, hsurvey, hrank]⟩

lemma handsOut_propose (trees : Value) :
    s.session.tables.names.HandsOut ((s.foundBy (.propose trees)).map Candidate.id)
      (s.propose trees).2.session.tables.names := by
  rcases s.propose_cases trees with ⟨e, htrees, -, heq⟩ | ⟨forest, e, htrees, -, heq⟩ |
    ⟨forest, survey, ranking, session, session', htrees, hsurvey, hrank, -, heq⟩
  · rw [heq, foundBy, htrees]
    exact .nil _
  · rw [heq, foundBy, htrees]
    exact s.session.handsOut_after (.survey forest)
  · have hout := s.session.handsOut_after (.survey forest)
    rw [Session.after, hsurvey] at hout
    obtain ⟨memo, -, rfl⟩ := Session.rank_eq_ok_iff.mp hrank
    rw [heq, foundBy, htrees]
    exact hout

lemma handsOut_after (request : Request) :
    s.session.tables.names.HandsOut (s.namesOf request)
      (s.after request).session.tables.names := by
  cases request with
  | seed examples =>
    rw [after, seed, namesOf]
    cases examples.toTextLists with
    | error e => exact .nil _
    | ok examples => exact handsOut_seedForest s.session.tables.names examples
  | propose trees => exact s.handsOut_propose trees
  | apply trees ids => exact .nil _
  | setBounds minLen maxLen =>
    rw [after]
    split
    · rename_i s' h
      obtain ⟨lo, hi, -, -, -, rfl⟩ := setBounds_eq_ok_iff.mp h
      exact .nil _
    · exact .nil _
  | clearMemo => exact .nil _
  | reset => exact .nil _

/-- A proposal that succeeds replaces what is known, and one that fails does not. -/
theorem known_propose (trees : Value) :
    (s.propose trees).2.known =
      match s.outcome? trees with
      | some (survey, _) => knownBy survey
      | none => s.known := by
  rcases s.propose_cases trees with ⟨e, -, hout, heq⟩ | ⟨forest, e, -, hout, heq⟩ |
    ⟨forest, survey, ranking, session, session', -, -, -, hout, heq⟩ <;> rw [hout, heq]

/-- A proposal succeeds with the views of what its ranking proposes. -/
theorem propose_eq_ok_iff {trees : Value} {views : List ProposalView} :
    (s.propose trees).1 = .ok views ↔ ∃ survey ranking,
      s.outcome? trees = some (survey, ranking) ∧
        views = ranking.proposals.map ProposalView.of := by
  rcases s.propose_cases trees with ⟨e, -, hout, heq⟩ | ⟨forest, e, -, hout, heq⟩ |
    ⟨forest, survey, ranking, session, session', -, -, -, hout, heq⟩ <;>
    simp [hout, heq, eq_comm]

/-- What a successful proposal kept is a part of what it found, has elements, and is all that its
ranking speaks of. -/
theorem outcome?_eq_some {trees : Value} {survey : Survey} {ranking : Ranking}
    (h : s.outcome? trees = some (survey, ranking)) :
    survey.candidates.values.Sublist (s.foundBy (.propose trees)) ∧
      (∀ c ∈ survey.candidates.values, c.elements ≠ []) ∧
      Ranking.Accounts survey.candidates.values ranking := by
  rcases s.propose_cases trees with ⟨e, -, hout, -⟩ | ⟨forest, e, -, hout, -⟩ |
    ⟨forest, survey', ranking', session, session', htrees, hsurvey, hrank, hout, -⟩
  · cases hout.symm.trans h
  · cases hout.symm.trans h
  · cases hout.symm.trans h
    obtain ⟨t, hok, rfl⟩ := Session.survey_eq_ok_iff.mp hsurvey
    have hpresent := fun c hc => Survey.present_of_ofForest_ok hok (c := c) hc
    obtain ⟨memo, heq, -⟩ := Session.rank_eq_ok_iff.mp hrank
    obtain ⟨other, memo', heq', haccounts⟩ := Ranking.exists_ofCandidates s.session.settings
      (fun c hc => (hpresent c hc).2.1) s.session.memo
    obtain rfl : ranking = other := (Prod.mk.inj (Except.ok.inj (heq.symm.trans heq'))).1
    refine ⟨?_, fun c hc => (hpresent c hc).1, haccounts⟩
    rw [foundBy, htrees]
    exact Survey.values_sublist_found hok

lemma known_seed {s s' : ScriptSession} {examples v : Value}
    (h : s.seed examples = .ok (v, s')) : s'.known = s.known := by
  obtain ⟨es, -, h⟩ := Except.bind_eq_ok_iff.mp h
  rw [← (Prod.mk.inj (Except.ok.inj h)).2]

lemma known_setBounds {s s' : ScriptSession} {minLen maxLen : Value}
    (h : s.setBounds minLen maxLen = .ok s') : s'.known = s.known := by
  obtain ⟨lo, hi, -, -, -, rfl⟩ := setBounds_eq_ok_iff.mp h
  rfl

end ScriptSession

/-- A session, and what became of the calls that led to it. -/
structure History where
  script : ScriptSession
  /-- The survey and the ranking of the last successful proposal since the last reset. -/
  last : Option (Survey × Ranking) := none
  /-- All candidates that were ever found. -/
  found : List Candidate := []

namespace History

open ScriptSession

def next (h : History) (request : Request) : History where
  script := h.script.after request
  last := match request with
    | .propose trees => (h.script.outcome? trees).or h.last
    | .reset => none
    | _ => h.last
  found := h.found ++ h.script.foundBy request

lemma last_next_propose (h : History) (trees : Value) :
    (h.next (.propose trees)).last = (h.script.outcome? trees).or h.last := rfl

lemma known_next_propose (h : History) (trees : Value) :
    (h.next (.propose trees)).script.known = (h.script.propose trees).2.known := rfl

def of (s : ScriptSession) (requests : List Request) : History :=
  requests.foldl next { script := s }

/-- What holds at first and after one more call holds of every history. -/
theorem of_induct {s : ScriptSession} {P : History → Prop} (hstart : P { script := s })
    (hnext : ∀ h request, P h → P (h.next request)) (requests : List Request) :
    P (of s requests) := by
  have hall : ∀ h, P h → P (requests.foldl next h) := by
    induction requests with
    | nil => exact fun _ => id
    | cons request requests ih => exact fun h hp => ih (h.next request) (hnext h request hp)
  exact hall _ hstart

/-- The candidates that the last successful proposal kept. -/
def kept (h : History) : List Candidate :=
  match h.last with
  | some (survey, _) => survey.candidates.values
  | none => []

/-- What holds after every call. -/
structure Consistent (start : NameSupply) (h : History) : Prop where
  /-- The session knows what was kept. -/
  known : h.script.known =
    match h.last with
    | some (survey, _) => ScriptSession.knownBy survey
    | none => .empty
  kept_found : h.kept.Sublist h.found
  elements : ∀ c ∈ h.kept, c.elements ≠ []
  ranked : ∀ survey ranking, h.last = some (survey, ranking) → ∀ e ∈ ranking.proposals,
    ∀ c ∈ e.proposal.candidates, c ∈ h.kept
  /-- Whatever was found has names of its own. -/
  names : ∃ names, start.HandsOut names h.script.session.tables.names ∧
    (h.found.map Candidate.id).Sublist names

variable {start : NameSupply} {h : History}

lemma consistent_start {s : ScriptSession} (hs : s.known = .empty) :
    Consistent s.session.tables.names { script := s } where
  known := hs
  kept_found := List.Sublist.slnil
  elements := nofun
  ranked := nofun
  names := ⟨[], .nil _, List.Sublist.slnil⟩

/-- What was found keeps names of its own. -/
theorem Consistent.names_next (hc : h.Consistent start) (request : Request) :
    ∃ names, start.HandsOut names (h.next request).script.session.tables.names ∧
      ((h.next request).found.map Candidate.id).Sublist names := by
  obtain ⟨names, hout, hsub⟩ := hc.names
  refine ⟨_, hout.append (h.script.handsOut_after request), ?_⟩
  change ((h.found ++ h.script.foundBy request).map Candidate.id).Sublist _
  rw [List.map_append]
  apply hsub.append
  cases request <;> first | exact List.Sublist.refl _ | exact List.nil_sublist _

/-- A call that changes nothing of what is known. -/
theorem Consistent.congr (hc : h.Consistent start) {h' : History}
    (hknown : h'.script.known = h.script.known) (hlast : h'.last = h.last)
    (hfound : h.found.Sublist h'.found)
    (hnames : ∃ names, start.HandsOut names h'.script.session.tables.names ∧
      (h'.found.map Candidate.id).Sublist names) : h'.Consistent start := by
  have hkept : h'.kept = h.kept := by rw [kept, hlast, kept]
  refine ⟨?_, ?_, ?_, ?_, hnames⟩
  · rw [hknown, hlast]
    exact hc.known
  · rw [hkept]
    exact hc.kept_found.trans hfound
  · rw [hkept]
    exact hc.elements
  · rw [hkept, hlast]
    exact hc.ranked

lemma Consistent.next_propose (hc : h.Consistent start) (trees : Value) :
    (h.next (.propose trees)).Consistent start := by
  have hnames := hc.names_next (.propose trees)
  have hknown := h.script.known_propose trees
  rw [← known_next_propose] at hknown
  cases hout : h.script.outcome? trees with
  | none =>
    rw [hout] at hknown
    have hlast : (h.next (.propose trees)).last = h.last := by rw [last_next_propose, hout]; rfl
    exact hc.congr hknown hlast (List.sublist_append_left _ _) hnames
  | some outcome =>
    obtain ⟨survey, ranking⟩ := outcome
    obtain ⟨hsub, helements, haccounts⟩ := h.script.outcome?_eq_some hout
    have hlast : (h.next (.propose trees)).last = some (survey, ranking) := by
      rw [last_next_propose, hout, Option.some_or]
    have hkept : (h.next (.propose trees)).kept = survey.candidates.values := by rw [kept, hlast]
    refine ⟨?_, ?_, ?_, ?_, hnames⟩
    · rw [hknown, hlast, hout]
    · rw [hkept]
      exact hsub.trans (List.sublist_append_right _ _)
    · rw [hkept]
      exact helements
    · rw [hkept, hlast]
      intro survey' ranking' heq
      obtain ⟨rfl, rfl⟩ := Prod.mk.inj (Option.some.inj heq)
      exact haccounts.mem

lemma Consistent.next (hc : h.Consistent start) (request : Request) :
    (h.next request).Consistent start := by
  have hnames := hc.names_next request
  have hfound : h.found.Sublist (h.next request).found := List.sublist_append_left _ _
  cases request with
  | seed examples =>
    refine hc.congr ?_ rfl hfound hnames
    change (h.script.after (.seed examples)).known = _
    rw [after]
    split
    · exact known_seed ‹_›
    · rfl
  | propose trees => exact hc.next_propose trees
  | apply trees ids => exact hc.congr rfl rfl hfound hnames
  | setBounds minLen maxLen =>
    refine hc.congr ?_ rfl hfound hnames
    change (h.script.after (.setBounds minLen maxLen)).known = _
    rw [after]
    split
    · exact known_setBounds ‹_›
    · rfl
  | clearMemo => exact hc.congr rfl rfl hfound hnames
  | reset => exact ⟨rfl, List.nil_sublist _, nofun, nofun, hnames⟩

lemma consistent_of {s : ScriptSession} (hs : s.known = .empty) (requests : List Request) :
    (of s requests).Consistent s.session.tables.names :=
  of_induct (consistent_start hs) (fun _ request hc => hc.next request) requests

end History

end Scripting
end GrammarInduction
