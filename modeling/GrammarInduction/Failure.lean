import GrammarInduction.Text.Quoted

/-!
What can go wrong. A refusal answers a request that the library turns down; a fault stops a
computation whose caller did not keep its side. Each cause is a constructor, and all wording is
here.
-/
namespace GrammarInduction

/-- Why a document could not be read at all. -/
inductive ReadFailure
  | missing
  | notText
  deriving DecidableEq, Repr

namespace ReadFailure

def message : ReadFailure → String
  | missing => "No such file or directory (os error 2)"
  | notText => "stream did not contain valid UTF-8"

end ReadFailure

/-- The two kinds of policy that are given by name. -/
inductive PolicyKind
  | spanStep
  | pairPolicy
  deriving DecidableEq, Repr

namespace PolicyKind

def name : PolicyKind → String
  | spanStep => "span_step"
  | pairPolicy => "pair_policy"

def choices : PolicyKind → String
  | spanStep => "'unit', 'increment'"
  | pairPolicy => "'larger', 'average'"

end PolicyKind

/-- A condition on the settings that does not hold. -/
inductive SettingsViolation
  | minLenZero
  | maxLenBelowMin (minLen maxLen : Nat)
  | maxProposalsZero
  deriving DecidableEq, Repr

namespace SettingsViolation

def field : SettingsViolation → String
  | minLenZero => "min_len"
  | maxLenBelowMin _ _ => "max_len"
  | maxProposalsZero => "max_proposals"

def condition : SettingsViolation → String
  | minLenZero => "must be greater than or equal to 1"
  | maxLenBelowMin lo hi =>
    "must be greater than or equal to min_len (" ++ toString lo ++ "), got " ++ toString hi
  | maxProposalsZero => "must be greater than or equal to 1"

end SettingsViolation

/-- A request that is turned down. -/
inductive Refusal
  | invalidSettings (violation : SettingsViolation)
  | unknownPolicy (kind : PolicyKind) (value : String)
  | malformedDocument
  | unreadableDocument (path : String) (cause : ReadFailure)
  deriving DecidableEq, Repr

namespace Refusal

def message : Refusal → String
  | invalidSettings v =>
    "invalid configuration value for \x60" ++ v.field ++ "\x60: " ++ v.condition
  | unknownPolicy k v =>
    "unknown " ++ k.name ++ " " ++ Text.quoted v ++ ", expected one of: " ++ k.choices
  | malformedDocument => "failed to parse grouping configuration"
  | unreadableDocument path cause =>
    "failed to read grouping configuration from " ++ path ++ ": " ++ cause.message

def help : Refusal → Option String
  | invalidSettings _ => some <|
    "Span lengths must satisfy 1 <= min_len <= max_len and max_proposals must be at least 1."
  | malformedDocument => some "Check the TOML syntax. Unknown keys are rejected."
  | unknownPolicy _ _ => none
  | unreadableDocument _ _ => none

end Refusal

/-- A computation that cannot go on. -/
inductive Fault
  /-- A symbol number beyond the table. -/
  | unknownSymbol (size index : Nat)
  /-- A grouping without labels. -/
  | emptyPattern
  /-- Two candidates, neither of which occurs anywhere. -/
  | noSources (self other : String)
  /-- A span that ends before it starts. -/
  | reversedSpan
  /-- The end of a run is no 64-bit number. -/
  | lengthOverflow
  /-- A grouping that produces its own pattern again and again. -/
  | endlessCollapse
  deriving DecidableEq, Repr

namespace Fault

def message : Fault → String
  | unknownSymbol size index =>
    "index out of bounds: the len is " ++ toString size ++ " but the index is " ++ toString index
  | emptyPattern => "cannot apply a grouping without elements"
  | noSources a b => "bubbles " ++ a ++ " and " ++ b ++ " have no recorded sources"
  | reversedSpan => "span range start after end"
  | lengthOverflow => "attempt to add with overflow"
  | endlessCollapse => "the grouping collapses its own result without end"

end Fault

inductive Failure
  | refused (refusal : Refusal)
  | faulted (fault : Fault)
  deriving DecidableEq, Repr

end GrammarInduction
