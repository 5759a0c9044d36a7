import GrammarInduction.Candidate.Basic

/-!
Whether the application of one candidate destroys all places of another. Both directions are
assumed at first; disjoint spans at a common site, a span that covers the other one, and a site of
one candidate alone are evidence against it.
-/
namespace GrammarInduction

/-- Which of two candidates breaks the other. -/
structure Breaking where
  selfBreaksOther : Bool
  otherBreaksSelf : Bool
  deriving Inhabited, DecidableEq, Repr

namespace Breaking

/-- Takes a span of either candidate at a common site as evidence. -/
def weighSpans (v : Breaking) (mine theirs : Span) : Breaking :=
  if mine.isDisjoint theirs then ⟨false, false⟩
  else ⟨v.selfBreaksOther && !mine.contains theirs, v.otherBreaksSelf && !theirs.contains mine⟩

/-- Takes a site of the first candidate as evidence, with the spans of the second one there. -/
def weighSite (v : Breaking) (mine : List Span) : Option (List Span) → Breaking
  | none => { v with otherBreaksSelf := false }
  | some theirs =>
    mine.foldl (fun v m => theirs.foldl (fun v t => v.weighSpans m t) v) v

end Breaking

namespace Candidate

/-- Which of two candidates breaks the other; one of them has to occur somewhere. -/
def breaking (self other : Candidate) : Except Fault Breaking :=
  if self.sources.isEmpty && other.sources.isEmpty then .error (.noSources self.id other.id)
  else
    let v := self.sources.entries.foldl
      (fun v e => Breaking.weighSite v e.2 (other.sources.get? e.1)) ⟨true, true⟩
    let elsewhere := other.sources.keys.any fun site => !self.sources.contains site
    .ok { v with selfBreaksOther := v.selfBreaksOther && !elsewhere }

end Candidate
end GrammarInduction
