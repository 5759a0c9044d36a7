import GrammarInduction.Binary64.Basic
import GrammarInduction.Candidate.Breaking
import GrammarInduction.Settings.Basic

/-!
Ranking: every two candidates that do not both consist of one element and do not break each other
are scored, the better scores come first, and a pair with a one-element candidate proposes the
other one alone, once.
-/
namespace GrammarInduction

/-- The score of a pair; earlier fields decide first. -/
structure Score where
  likeness : Binary64
  /-- The depth with a minus sign, so that what is nearer to the root ranks higher. -/
  depth : Binary64
  commonness : Binary64
  size : Binary64
  deriving Inhabited, DecidableEq, Repr

namespace Score

def order (a b : Score) : Ordering :=
  (((a.likeness.order b.likeness).then (a.depth.order b.depth)).then
    (a.commonness.order b.commonness)).then (a.size.order b.size)

def numEq (a b : Score) : Bool :=
  a.likeness.numEq b.likeness && a.depth.numEq b.depth && a.commonness.numEq b.commonness &&
    a.size.numEq b.size

end Score

/-- The number that stands for a likeness. -/
def Likeness.value (n : Nat) : Binary64 := .ofRatio n Likeness.whole

/-- A pair with its score, the candidate to apply first in front. -/
structure ScoredPair where
  score : Score
  first : Candidate
  second : Candidate
  deriving Inhabited

inductive Proposal
  | single (candidate : Candidate)
  | pair (first second : Candidate)
  deriving Inhabited

namespace Proposal

/-- The candidates in the order of their application. -/
def candidates : Proposal → List Candidate
  | single c => [c]
  | pair a b => [a, b]

def isPair : Proposal → Bool
  | single _ => false
  | pair _ _ => true

end Proposal

structure RankedProposal where
  proposal : Proposal
  score : Score
  deriving Inhabited

/-- The proposals of a survey, the best first, and what their choice went through. -/
structure Ranking where
  proposals : List RankedProposal
  candidates : Nat
  pairsScored : Nat
  pairsSkipped : Nat
  parallel : Bool
  deriving Inhabited

namespace Ranking

/-- A value of a pair from those of its candidates, the first of which is the one with more
elements if `firstLarger`. -/
def pairValue (policy : PairPolicy) (firstLarger : Bool) (a b : Nat) : Binary64 :=
  match policy with
  | .larger => .ofNat (if firstLarger then a else b)
  | .average => .mean a b

/-- How common a pair is. A candidate of one element does not count for itself. -/
def commonness (a b : Candidate) : Binary64 :=
  if a.isSingle then .half b.neighbourhoodTotal
  else if b.isSingle then .ofNat a.neighbourhoodTotal
  else .mean a.neighbourhoodTotal b.neighbourhoodTotal

/-- The score of two candidates of the given likeness. -/
def score (settings : Settings) (likeness : Nat) (a b : Candidate) : Score :=
  let firstLarger := decide (b.length < a.length)
  { likeness := Likeness.value likeness
    depth := -pairValue settings.pairDepth firstLarger a.depth b.depth
    commonness := commonness a b
    size := pairValue settings.pairSize firstLarger a.length b.length }

/-- Scores two candidates, unless both consist of one element or each breaks the other. -/
def scorePair (settings : Settings) (a b : Candidate) (memo : LikenessMemo) :
    Except Fault (Option ScoredPair × LikenessMemo) :=
  if a.isSingle && b.isSingle then .ok (none, memo)
  else do
    let breaking ← a.breaking b
    if breaking.selfBreaksOther && breaking.otherBreaksSelf then return (none, memo)
    let (likeness, memo) := a.likenessBy memo b
    let (first, second) := if breaking.selfBreaksOther then (b, a) else (a, b)
    return (some ⟨score settings likeness a b, first, second⟩, memo)

def scoreWith (settings : Settings) (a : Candidate) :
    List Candidate → LikenessMemo → Except Fault (List ScoredPair × LikenessMemo)
  | [], memo => .ok ([], memo)
  | b :: bs, memo => do
    let (here, memo) ← scorePair settings a b memo
    let (rest, memo) ← scoreWith settings a bs memo
    return (here.toList ++ rest, memo)

def scorePairs (settings : Settings) :
    List Candidate → LikenessMemo → Except Fault (List ScoredPair × LikenessMemo)
  | [], memo => .ok ([], memo)
  | a :: as, memo => do
    let (here, memo) ← scoreWith settings a as memo
    let (rest, memo) ← scorePairs settings as memo
    return (here ++ rest, memo)

/-- Candidates with more elements first, among equals those found earlier. -/
def sortCandidates (cs : List Candidate) : List Candidate :=
  cs.mergeSort fun a b => b.length < a.length || (b.length == a.length && a.seq ≤ b.seq)

/-- Pairs with the greater score first, equal ones as they come. -/
def sortPairs (ps : List ScoredPair) : List ScoredPair :=
  ps.mergeSort fun a b => (a.score.order b.score).isGE

/-- What a pair proposes: without its candidate of one element, if it has one. -/
def proposalOf (p : ScoredPair) : Proposal :=
  if p.first.isSingle then .single p.second
  else if p.second.isSingle then .single p.first
  else .pair p.first p.second

/-- Takes at most `room` proposals from sorted pairs. A candidate whose name was proposed alone
before is passed over. -/
def choose (room : Nat) (seen : List String) : List ScoredPair → List RankedProposal
  | [] => []
  | p :: ps =>
    if room = 0 then []
    else match proposalOf p with
      | .pair a b => ⟨.pair a b, p.score⟩ :: choose (room - 1) seen ps
      | .single c =>
        if c.id ∈ seen then choose room seen ps
        else ⟨.single c, p.score⟩ :: choose (room - 1) (c.id :: seen) ps

def ofCandidates (settings : Settings) (candidates : Catalogue String Candidate)
    (memo : LikenessMemo) : Except Fault (Ranking × LikenessMemo) := do
  let sorted := sortCandidates candidates.values
  let (pairs, memo) ← scorePairs settings sorted memo
  let n := sorted.length
  return ({
    proposals := choose settings.maxProposals [] (sortPairs pairs)
    candidates := n
    pairsScored := pairs.length
    pairsSkipped := n * (n - 1) / 2 - pairs.length
    parallel := settings.parallelThreshold ≤ n }, memo)

end Ranking
end GrammarInduction
