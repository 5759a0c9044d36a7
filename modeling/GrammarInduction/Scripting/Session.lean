import GrammarInduction.Scripting.Call
import GrammarInduction.Session
import GrammarInduction.Settings.Document

/-!
Sessions as scripts see them: forests come and go as values, and a candidate is known by its name
from the proposal that listed it until the next one or a reset.
-/
namespace GrammarInduction
namespace Scripting

/-- A proposal as a script sees it. -/
structure ProposalView where
  isPair : Bool
  ids : List String
  /-- The labels of the elements of each candidate. -/
  elements : List (List String)
  /-- The text that each candidate derives. -/
  derived : List String
  score : Score
  deriving Inhabited, DecidableEq, Repr

def ProposalView.of (r : RankedProposal) : ProposalView :=
  let cs := r.proposal.candidates
  { isPair := r.proposal.isPair
    ids := cs.map Candidate.id
    elements := cs.map fun c => Forest.labels c.elements
    derived := cs.map Candidate.text
    score := r.score }

/-- A session and the candidates that a script may name. -/
structure ScriptSession where
  session : Session
  known : Catalogue String Candidate := .empty
  deriving Inhabited

namespace ScriptSession

/-- Starts a session with settings that pass the check. -/
def start (settings : Settings) : Except CallError ScriptSession := do
  let session ← (Session.start settings {}).mapError .refused
  return { session }

def ofCall (c : Call) : Except CallError ScriptSession := do
  let settings ← c.settings
  start settings

def ofDocument (source : Value) : Except CallError ScriptSession := do
  let source ← source.toText
  let settings ← (Settings.ofDocument source).mapError .refused
  start settings

def setBounds (s : ScriptSession) (minLen maxLen : Value) : Except CallError ScriptSession := do
  let minLen ← minLen.toNat
  let maxLen ← maxLen.toNat
  let session ← (s.session.setBounds minLen maxLen).mapError .refused
  return { s with session }

def seed (s : ScriptSession) (examples : Value) : Except CallError (Value × ScriptSession) := do
  let examples ← examples.toTextLists
  let (trees, session) := s.session.seed examples
  return (.ofForest trees, { s with session })

def knownBy (survey : Survey) : Catalogue String Candidate :=
  survey.candidates.values.foldl (fun known c => known.insert c.id c) .empty

/-- Surveys a forest and ranks its candidates, which are known afterwards. A failure leaves the
known ones as they were. -/
def proposeForest (s : ScriptSession) (trees : Forest) :
    Except CallError (List ProposalView) × ScriptSession :=
  match s.session.survey trees with
  | (.error (.refused refusal), session) => (.error (.refused refusal), { s with session })
  | (.error (.faulted fault), session) => (.error (.aborted fault), { s with session })
  | (.ok survey, session) =>
    match session.rank survey with
    | .error fault => (.error (.aborted fault), { s with session })
    | .ok (ranking, session) =>
      (.ok (ranking.proposals.map ProposalView.of), { session, known := knownBy survey })

/-- Lets a forest in and proposes groupings of it. -/
def propose (s : ScriptSession) (trees : Value) :
    Except CallError (List ProposalView) × ScriptSession :=
  match trees.toForest with
  | .error e => (.error e, s)
  | .ok trees => s.proposeForest trees

def applyKnown (known : Catalogue String Candidate) (trees : Forest) :
    List String → Except CallError Forest
  | [] => .ok trees
  | id :: ids =>
    match known.get? id with
    | none => .error (.unknownId id)
    | some c => do
      let trees ← (trees.applyCandidate c).mapError .aborted
      applyKnown known trees ids

def apply (s : ScriptSession) (trees ids : Value) : Except CallError Value := do
  let trees ← trees.toForest
  let ids ← ids.toTexts
  let trees ← applyKnown s.known trees ids
  return .ofForest trees

def clearMemo (s : ScriptSession) : ScriptSession := { s with session := s.session.clearMemo }

def reset (s : ScriptSession) : ScriptSession := { session := s.session.reset }

end ScriptSession
end Scripting
end GrammarInduction
