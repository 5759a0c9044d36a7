import GrammarInduction.Failure

/-!
Settings of a survey and its ranking: which lengths a run may have, how the values of a pair come
from its two candidates, and how many proposals are wanted. Settings are checked before use.
-/
namespace GrammarInduction

/-- How the lengths of runs grow. -/
inductive SpanStep
  /-- Every length is tried. -/
  | unit
  /-- Lengths grow by one less than the longest, so that the usual shortest length one is followed
  by the longest alone. -/
  | increment
  deriving Inhabited, DecidableEq, Repr

namespace SpanStep

def name : SpanStep → String
  | unit => "unit"
  | increment => "increment"

def ofName (value : String) : Except Refusal SpanStep :=
  if value = "unit" then .ok unit
  else if value = "increment" then .ok increment
  else .error (.unknownPolicy .spanStep value)

/-- The distance from one length to the next, which is never zero. -/
def stride (step : SpanStep) (maxLen : Nat) : Nat :=
  match step with
  | unit => 1
  | increment => max (maxLen - 1) 1

@[simp] theorem ofName_name (s : SpanStep) : ofName s.name = .ok s := by
  cases s <;> simp [ofName, name]

theorem stride_pos (s : SpanStep) (maxLen : Nat) : 0 < s.stride maxLen := by
  cases s with
  | unit => exact Nat.one_pos
  | increment => simp only [stride]; omega

end SpanStep

/-- How a value of a pair comes from its two candidates. -/
inductive PairPolicy
  /-- The value of the candidate with more elements. -/
  | larger
  /-- The mean of both values. -/
  | average
  deriving Inhabited, DecidableEq, Repr

namespace PairPolicy

def name : PairPolicy → String
  | larger => "larger"
  | average => "average"

def ofName (value : String) : Except Refusal PairPolicy :=
  if value = "larger" then .ok larger
  else if value = "average" then .ok average
  else .error (.unknownPolicy .pairPolicy value)

@[simp] theorem ofName_name (p : PairPolicy) : ofName p.name = .ok p := by
  cases p <;> simp [ofName, name]

end PairPolicy

structure Settings where
  minLen : Nat := 1
  maxLen : Nat := 4
  spanStep : SpanStep := .unit
  pairDepth : PairPolicy := .larger
  pairSize : PairPolicy := .larger
  maxProposals : Nat := 100
  parallelThreshold : Nat := 64
  deriving Inhabited, DecidableEq, Repr

namespace Settings

/-- Runs have at least one element, the longest is no shorter than the shortest, and some proposal
is wanted. -/
def Valid (s : Settings) : Prop := 1 ≤ s.minLen ∧ s.minLen ≤ s.maxLen ∧ 1 ≤ s.maxProposals

instance (s : Settings) : Decidable s.Valid := inferInstanceAs (Decidable (_ ∧ _ ∧ _))

def violation? (s : Settings) : Option SettingsViolation :=
  if s.minLen = 0 then some .minLenZero
  else if s.maxLen < s.minLen then some (.maxLenBelowMin s.minLen s.maxLen)
  else if s.maxProposals = 0 then some .maxProposalsZero
  else none

def check (s : Settings) : Except Refusal Settings :=
  match s.violation? with
  | some v => .error (.invalidSettings v)
  | none => .ok s

theorem violation?_eq_none_iff (s : Settings) : s.violation? = none ↔ s.Valid := by
  unfold violation? Valid
  repeat' split
  all_goals simp
  all_goals omega

theorem check_eq_ok_iff {s t : Settings} : s.check = .ok t ↔ t = s ∧ s.Valid := by
  have h := s.violation?_eq_none_iff
  unfold check
  cases hv : s.violation? with
  | none => simp [h.mp hv, eq_comm]
  | some v =>
    have : ¬s.Valid := fun hs => by simp [h.mpr hs] at hv
    simp [this]

/-- Settings fail their check for the first condition that they miss. -/
theorem check_eq_error_iff {s : Settings} {refusal : Refusal} :
    s.check = .error refusal ↔
      ∃ violation, s.violation? = some violation ∧ refusal = .invalidSettings violation := by
  rw [check]
  cases s.violation? <;> simp [eq_comm]

def withMaxLen (n : Nat) : Settings := { maxLen := n }

/-- The distance from one length to the next. -/
def stride (s : Settings) : Nat := s.spanStep.stride s.maxLen

theorem stride_pos (s : Settings) : 0 < s.stride := s.spanStep.stride_pos s.maxLen

def Admits (s : Settings) (len : Nat) : Prop := ∃ k, len = s.minLen + k * s.stride ∧ len ≤ s.maxLen

/-- The lengths of runs that fit into `room` children, in increasing order. -/
def lengths (s : Settings) (room : Nat) : List Nat :=
  ((List.range (room + 1)).map fun k => s.minLen + k * s.stride).takeWhile
    fun len => len ≤ s.maxLen && len ≤ room

def nextLength (s : Settings) (room : Nat) : Nat :=
  s.minLen + (s.lengths room).length * s.stride

end Settings
end GrammarInduction
