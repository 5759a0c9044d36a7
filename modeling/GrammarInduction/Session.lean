import GrammarInduction.Forest.Grouping
import GrammarInduction.Forest.Seed
import GrammarInduction.Ranking
import GrammarInduction.Survey.Basic

/-!
Sessions: settings, known symbols, fresh names and known likenesses, kept from one survey to the
next. Candidates and proposals are applied to a forest as groupings.
-/
namespace GrammarInduction

def Candidate.grouping (c : Candidate) : Grouping := ⟨Forest.labels c.elements, c.id⟩

def Forest.applyCandidate (trees : Forest) (c : Candidate) : Except Fault Forest :=
  trees.apply c.grouping

def Forest.applyCandidates (trees : Forest) : List Candidate → Except Fault Forest
  | [] => .ok trees
  | c :: cs => do
    let trees ← trees.applyCandidate c
    trees.applyCandidates cs

def Forest.applyProposal (trees : Forest) (p : Proposal) : Except Fault Forest :=
  trees.applyCandidates p.candidates

structure Session where
  settings : Settings := {}
  tables : Tables := {}
  memo : LikenessMemo := {}
  deriving Inhabited

namespace Session

/-- Starts a session with valid settings. -/
def start (settings : Settings) (names : NameSupply) : Except Refusal Session :=
  settings.check.map fun settings => { settings, tables := { names } }

/-- Changes the bounds of the lengths, if the settings stay valid. -/
def setBounds (s : Session) (minLen maxLen : Nat) : Except Refusal Session :=
  ({ s.settings with minLen, maxLen } : Settings).check.map fun settings => { s with settings }

def clearMemo (s : Session) : Session := { s with memo := .empty }

/-- Forgets symbols and likenesses; likenesses are of symbol numbers, so both go together. -/
def reset (s : Session) : Session :=
  { s with tables := { s.tables with symbols := {} }, memo := .empty }

def seed (s : Session) (examples : List (List String)) : Forest × Session :=
  let (trees, names) := seedForest s.tables.names examples
  (trees, { s with tables := { s.tables with names } })

def survey (s : Session) (trees : Forest) : Except Failure Survey × Session :=
  let (result, tables) := Survey.ofForest s.settings trees s.tables
  (result, { s with tables })

def rank (s : Session) (survey : Survey) : Except Fault (Ranking × Session) :=
  (Ranking.ofCandidates s.settings survey.candidates s.memo).map fun (ranking, memo) =>
    (ranking, { s with memo })

end Session
end GrammarInduction
