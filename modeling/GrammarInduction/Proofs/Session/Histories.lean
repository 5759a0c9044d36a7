import Mathlib.Logic.Relation
import GrammarInduction.Proofs.Basic
import GrammarInduction.Proofs.Candidate.Likeness
import GrammarInduction.Proofs.Survey.Numbering
import GrammarInduction.Session

/-!
The histories of sessions. Whatever is done with a session, its settings stay valid, its names are
only handed out, and its memo knows nothing wrong.
-/
namespace GrammarInduction

namespace Ranking

variable {settings : Settings} {memo memo' : LikenessMemo}

lemma reachable_of_scorePair {a b : Candidate} {p : Option ScoredPair} (hm : memo.Reachable)
    (h : scorePair settings a b memo = .ok (p, memo')) : memo'.Reachable := by
  rw [scorePair] at h
  split at h
  · cases h
    exact hm
  · obtain ⟨v, -, hv⟩ := Except.bind_eq_ok_iff.mp h
    split at hv
    · cases hv
      exact hm
    · cases hv
      exact hm.likenessBy a b

lemma reachable_of_scoreWith {a : Candidate} {bs : List Candidate} {ps : List ScoredPair}
    (hm : memo.Reachable) (h : scoreWith settings a bs memo = .ok (ps, memo')) :
    memo'.Reachable := by
  induction bs generalizing memo ps with
  | nil =>
    cases h
    exact hm
  | cons b bs ih =>
    rw [scoreWith] at h
    obtain ⟨⟨here, m1⟩, h1, h⟩ := Except.bind_eq_ok_iff.mp h
    obtain ⟨⟨rest, m2⟩, h2, h⟩ := Except.bind_eq_ok_iff.mp h
    cases h
    exact ih (reachable_of_scorePair hm h1) h2

lemma reachable_of_scorePairs {cs : List Candidate} {ps : List ScoredPair}
    (hm : memo.Reachable) (h : scorePairs settings cs memo = .ok (ps, memo')) :
    memo'.Reachable := by
  induction cs generalizing memo ps with
  | nil =>
    cases h
    exact hm
  | cons a as ih =>
    rw [scorePairs] at h
    obtain ⟨⟨here, m1⟩, h1, h⟩ := Except.bind_eq_ok_iff.mp h
    obtain ⟨⟨rest, m2⟩, h2, h⟩ := Except.bind_eq_ok_iff.mp h
    cases h
    exact ih (reachable_of_scoreWith hm h1) h2

lemma reachable_of_ofCandidates {candidates : Catalogue String Candidate} {ranking : Ranking}
    (hm : memo.Reachable) (h : ofCandidates settings candidates memo = .ok (ranking, memo')) :
    memo'.Reachable := by
  rw [ofCandidates] at h
  obtain ⟨⟨pairs, m1⟩, h1, h⟩ := Except.bind_eq_ok_iff.mp h
  cases h
  exact reachable_of_scorePairs hm h1

end Ranking

namespace Session

/-- What can be done with a session. -/
inductive Step : Session → Session → Prop
  | setBounds {s s' : Session} (minLen maxLen : Nat) (h : s.setBounds minLen maxLen = .ok s') :
      Step s s'
  | clearMemo (s : Session) : Step s s.clearMemo
  | reset (s : Session) : Step s s.reset
  | seed (s : Session) (examples : List (List String)) : Step s (s.seed examples).2
  | survey (s : Session) (trees : Forest) : Step s (s.survey trees).2
  | rank {s s' : Session} (survey : Survey) (ranking : Ranking)
      (h : s.rank survey = .ok (ranking, s')) : Step s s'

abbrev Steps : Session → Session → Prop := Relation.ReflTransGen Step

/-- A session that was started with some settings and names and used somehow. -/
def Reachable (s : Session) : Prop :=
  ∃ settings names s₀, start settings names = .ok s₀ ∧ Steps s₀ s

variable {s s' : Session}

lemma start_eq_ok_iff {settings : Settings} {names : NameSupply} :
    start settings names = .ok s ↔
      settings.Valid ∧ s = { settings, tables := { names } } := by
  rw [start]
  cases hc : settings.check with
  | error refusal =>
    have : ¬settings.Valid := fun hv => by
      rw [Settings.check_eq_ok_iff.mpr ⟨rfl, hv⟩] at hc
      cases hc
    simp [Except.map, this]
  | ok settings' =>
    obtain ⟨rfl, hv⟩ := Settings.check_eq_ok_iff.mp hc
    simp [Except.map, hv, eq_comm]

lemma setBounds_eq_ok_iff {minLen maxLen : Nat} :
    s.setBounds minLen maxLen = .ok s' ↔
      ({ s.settings with minLen, maxLen } : Settings).Valid ∧
        s' = { s with settings := { s.settings with minLen, maxLen } } := by
  rw [setBounds]
  cases hc : ({ s.settings with minLen, maxLen } : Settings).check with
  | error refusal =>
    have : ¬({ s.settings with minLen, maxLen } : Settings).Valid := fun hv => by
      rw [Settings.check_eq_ok_iff.mpr ⟨rfl, hv⟩] at hc
      cases hc
    simp [Except.map, this]
  | ok settings' =>
    obtain ⟨rfl, hv⟩ := Settings.check_eq_ok_iff.mp hc
    simp [Except.map, hv, eq_comm]

lemma rank_eq_ok_iff {survey : Survey} {ranking : Ranking} :
    s.rank survey = .ok (ranking, s') ↔
      ∃ memo, Ranking.ofCandidates s.settings survey.candidates s.memo = .ok (ranking, memo) ∧
        s' = { s with memo } := by
  rw [rank]
  cases Ranking.ofCandidates s.settings survey.candidates s.memo with
  | error fault => simp [Except.map]
  | ok out =>
    obtain ⟨r, memo⟩ := out
    simp only [Except.map, Except.ok.injEq, Prod.mk.injEq]
    constructor
    · rintro ⟨rfl, rfl⟩
      exact ⟨memo, ⟨rfl, rfl⟩, rfl⟩
    · rintro ⟨_, ⟨rfl, rfl⟩, rfl⟩
      exact ⟨rfl, rfl⟩

/-- A step hands out names, and none comes back. -/
theorem Step.leadsTo (h : Step s s') : s.tables.names.LeadsTo s'.tables.names := by
  cases h with
  | setBounds minLen maxLen h =>
    obtain ⟨-, rfl⟩ := setBounds_eq_ok_iff.mp h
    exact .refl _
  | clearMemo => exact .refl _
  | reset => exact .refl _
  | seed examples => exact leadsTo_seedForest s.tables.names examples
  | survey trees => exact Survey.leadsTo_ofForest s.settings trees s.tables
  | rank survey ranking h =>
    obtain ⟨memo, -, rfl⟩ := rank_eq_ok_iff.mp h
    exact .refl _

lemma Steps.leadsTo (h : Steps s s') : s.tables.names.LeadsTo s'.tables.names := by
  induction h with
  | refl => exact .refl _
  | tail _ hstep ih => exact ih.trans hstep.leadsTo

lemma Step.reachable_memo (h : Step s s') (hm : s.memo.Reachable) : s'.memo.Reachable := by
  cases h with
  | setBounds minLen maxLen h =>
    obtain ⟨-, rfl⟩ := setBounds_eq_ok_iff.mp h
    exact hm
  | clearMemo => exact .empty
  | reset => exact .empty
  | seed examples => exact hm
  | survey trees => exact hm
  | rank survey ranking h =>
    obtain ⟨memo, heq, rfl⟩ := rank_eq_ok_iff.mp h
    exact Ranking.reachable_of_ofCandidates hm heq

lemma Reachable.steps (h : s.Reachable) (hs : Steps s s') : s'.Reachable := by
  obtain ⟨settings, names, s₀, hstart, h⟩ := h
  exact ⟨settings, names, s₀, hstart, h.trans hs⟩

lemma Reachable.step (h : s.Reachable) (hs : Step s s') : s'.Reachable := h.steps (.single hs)

/-- The memo of a session knows nothing wrong. -/
theorem Reachable.memo (h : s.Reachable) : s.memo.Reachable := by
  obtain ⟨settings, names, s₀, hstart, hsteps⟩ := h
  induction hsteps with
  | refl =>
    obtain ⟨-, rfl⟩ := start_eq_ok_iff.mp hstart
    exact .empty
  | tail _ hstep ih => exact hstep.reachable_memo ih

end Session
end GrammarInduction
