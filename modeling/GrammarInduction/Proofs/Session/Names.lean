import GrammarInduction.Proofs.Forest.SeedNames
import GrammarInduction.Proofs.Session.Builds
import GrammarInduction.Proofs.Survey.Found

/-!
The names of a session. Whatever is asked of it, its supply only hands out names, and nothing takes
it back: not a reset, not a request that is turned down, and not a survey that cannot be finished.
So no name comes twice before the counter has to pass the greatest word.
-/
namespace GrammarInduction

/-- What can be asked of a session, or of the forests, candidates and rankings that it gave. -/
inductive Operation
  | setBounds (minLen maxLen : Nat)
  | clearMemo
  | reset
  | seed (examples : List (List String))
  | survey (trees : Forest)
  | rank (survey : Survey)
  | applyCandidate (trees : Forest) (candidate : Candidate)
  | applyProposal (trees : Forest) (proposal : Proposal)

namespace Session

variable (s : Session)

/-- The session after an operation. Where it is turned down, the session stays as it was; a survey
keeps the symbols and names that it took, also when it is not finished. -/
def after : Operation → Session
  | .setBounds minLen maxLen =>
    match s.setBounds minLen maxLen with
    | .ok s' => s'
    | .error _ => s
  | .clearMemo => s.clearMemo
  | .reset => s.reset
  | .seed examples => (s.seed examples).2
  | .survey trees => (s.survey trees).2
  | .rank survey =>
    match s.rank survey with
    | .ok (_, s') => s'
    | .error _ => s
  -- Applications look at no session.
  | .applyCandidate _ _ => s
  | .applyProposal _ _ => s

def afterAll (s : Session) : List Operation → Session
  | [] => s
  | op :: ops => (s.after op).afterAll ops

/-- The names that an operation hands out: to the classes and segments of a first forest, and to
all candidates that a survey finds. -/
def namesOf : Operation → List String
  | .seed examples => seedNames s.tables.names examples
  | .survey trees => (Survey.found s.settings trees s.tables).values.map Candidate.id
  | _ => []

def namesOfAll (s : Session) : List Operation → List String
  | [] => []
  | op :: ops => s.namesOf op ++ (s.after op).namesOfAll ops

/-- Other bounds leave everything but the settings, and valid ones valid. -/
theorem exists_after_setBounds (minLen maxLen : Nat) :
    ∃ settings : Settings, s.after (.setBounds minLen maxLen) = { s with settings } ∧
      (s.settings.Valid → settings.Valid) := by
  rw [after]
  split
  · rename_i s' h
    obtain ⟨hvalid, rfl⟩ := setBounds_eq_ok_iff.mp h
    exact ⟨_, rfl, fun _ => hvalid⟩
  · exact ⟨s.settings, rfl, id⟩

/-- A ranking leaves everything but the known likenesses. -/
theorem exists_after_rank (survey : Survey) : ∃ memo, s.after (.rank survey) = { s with memo } := by
  rw [after]
  split
  · rename_i ranking s' h
    obtain ⟨memo, -, rfl⟩ := rank_eq_ok_iff.mp h
    exact ⟨memo, rfl⟩
  · exact ⟨s.memo, rfl⟩

lemma handsOut_after (op : Operation) :
    s.tables.names.HandsOut (s.namesOf op) (s.after op).tables.names := by
  cases op with
  | setBounds minLen maxLen =>
    obtain ⟨settings, hs, -⟩ := s.exists_after_setBounds minLen maxLen
    rw [hs]
    exact .nil _
  | clearMemo => exact .nil _
  | reset => exact .nil _
  | seed examples => exact handsOut_seedForest s.tables.names examples
  | survey trees => exact Survey.handsOut_ofForest s.settings trees s.tables
  | rank survey =>
    obtain ⟨memo, hs⟩ := s.exists_after_rank survey
    rw [hs]
    exact .nil _
  | applyCandidate trees candidate => exact .nil _
  | applyProposal trees proposal => exact .nil _

lemma handsOut_afterAll (ops : List Operation) :
    s.tables.names.HandsOut (s.namesOfAll ops) (s.afterAll ops).tables.names := by
  induction ops generalizing s with
  | nil => exact .nil _
  | cons op ops ih => exact (s.handsOut_after op).append (ih (s.after op))

/-- The candidates of a finished survey and the wrappers that it dropped have all its names. -/
theorem length_namesOf_survey {s s' : Session} {trees : Forest} {survey : Survey}
    (h : s.survey trees = (.ok survey, s')) :
    (survey.candidates.values.map Candidate.id).Sublist (s.namesOf (.survey trees)) ∧
      (s.namesOf (.survey trees)).length =
        survey.candidates.size + survey.tally.wrappersSuppressed := by
  obtain ⟨t, hok, -⟩ := survey_eq_ok_iff.mp h
  exact ⟨(Survey.values_sublist_found hok).map _, (List.length_map _).trans (Survey.length_found hok)⟩

end Session

/-- The first names of a supply are distinct if and only if their numbers are words. The names
that operations of a session hand out, in whatever order these come, are the first ones of its
supply, so they are distinct just as long; those of a finished survey are the names of the
candidates that it kept and of the wrappers that it dropped. -/
theorem names_nodup_iff {names : NameSupply} (hword : names.next < 2 ^ 64) :
    (∀ k, ((names.take k).1.map Prod.fst).Nodup ↔ names.next + k ≤ 2 ^ 64) ∧
      ∀ (s : Session) (ops : List Operation), s.tables.names = names →
        (∃ k, s.namesOfAll ops = (names.take k).1.map Prod.fst ∧
          (s.afterAll ops).tables.names = (names.take k).2) ∧
        ((s.namesOfAll ops).Nodup ↔ names.next + (s.namesOfAll ops).length ≤ 2 ^ 64) ∧
        ∀ trees survey s', (s.afterAll ops).survey trees = (.ok survey, s') →
          (survey.candidates.values.map Candidate.id).Sublist
              ((s.afterAll ops).namesOf (.survey trees)) ∧
            ((s.afterAll ops).namesOf (.survey trees)).length =
              survey.candidates.size + survey.tally.wrappersSuppressed := by
  have hmax : 2 ^ 64 = wordMax + 1 := rfl
  rw [hmax] at hword ⊢
  have hle : names.next ≤ wordMax := Nat.le_of_lt_succ hword
  constructor
  · intro k
    rw [(names.handsOut_take k).nodup_iff hle, NameSupply.length_take]
  · intro s ops hs
    subst hs
    have hout := s.handsOut_afterAll ops
    exact ⟨⟨_, hout.eq_take⟩, hout.nodup_iff hle, fun _ _ _ => Session.length_namesOf_survey⟩

/-- Names of digits only, with two left before they repeat. -/
def lastNames : NameSupply := ⟨"7", 2 ^ 64 - 2⟩

def lastSession : Session := { tables := { names := lastNames } }

/-- A tree whose whole child list is a run that its survey drops at the end. -/
def wrappedForest : Forest :=
  [.branch "START" [.terminal "a", .terminal "b", .terminal "c"]]

/-- A first forest takes the last two names. Beginning anew gives none of them back, and the survey
after it hands out the last one to all that it finds. -/
theorem names_nodup_iff_lastNames :
    lastNames.next < 2 ^ 64 ∧
      (((lastNames.take 2).1.map Prod.fst).Nodup ∧ ¬((lastNames.take 3).1.map Prod.fst).Nodup) ∧
      (lastSession.namesOfAll [.seed [["("]], .reset]).Nodup ∧
      ¬(lastSession.namesOfAll [.seed [["("]], .reset, .survey wrappedForest]).Nodup := by
  have hword : lastNames.next < 2 ^ 64 := by decide
  obtain ⟨htake, hall⟩ := names_nodup_iff hword
  obtain ⟨-, hnodup, -⟩ := hall lastSession [.seed [["("]], .reset] rfl
  obtain ⟨-, hover, -⟩ := hall lastSession [.seed [["("]], .reset, .survey wrappedForest] rfl
  refine ⟨hword, ⟨(htake 2).mpr (by decide), fun h => absurd ((htake 3).mp h) (by decide)⟩,
    hnodup.mpr (by decide +kernel), fun h => absurd (hover.mp h) (by decide +kernel)⟩

end GrammarInduction
