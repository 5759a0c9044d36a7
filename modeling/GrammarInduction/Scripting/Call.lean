import GrammarInduction.Scripting.Value
import GrammarInduction.Settings.Basic

/-!
Calls with positional and named arguments, and the call that makes settings. Every argument is
converted before any is looked at more closely.
-/
namespace GrammarInduction
namespace Scripting

structure Call where
  positional : List Value := []
  named : List (String × Value) := []
  deriving Inhabited, Repr

namespace Call

/-- The arguments by parameter, `none` where the call gives none. Each parameter is given at most
once and by a known name. -/
def bind (parameters : List String) (c : Call) : Except CallError (List (Option Value)) :=
  let taken := parameters.take c.positional.length
  let names := c.named.map Prod.fst
  if parameters.length < c.positional.length then .error .wrongType
  else if names.any fun n => n ∉ parameters || n ∈ taken then .error .wrongType
  else if names.eraseDups.length ≠ names.length then .error .wrongType
  else .ok <| c.positional.map some ++
    (parameters.drop c.positional.length).map fun p => c.named.lookup p

def convert {α : Type} (read : Value → Except CallError α) (default : α) :
    Option (Option Value) → Except CallError α
  | some (some v) => read v
  | _ => .ok default

def settingsParameters : List String :=
  ["max_len", "min_len", "span_step", "pair_depth", "pair_size", "max_proposals"]

/-- Settings from a call, not checked yet. The policies are parsed after all arguments were
converted, in the order of their parameters. -/
def settings (c : Call) : Except CallError Settings := do
  let args ← c.bind settingsParameters
  let usual : Settings := {}
  let maxLen ← convert Value.toNat usual.maxLen args[0]?
  let minLen ← convert Value.toNat usual.minLen args[1]?
  let spanStep ← convert Value.toText usual.spanStep.name args[2]?
  let pairDepth ← convert Value.toText usual.pairDepth.name args[3]?
  let pairSize ← convert Value.toText usual.pairSize.name args[4]?
  let maxProposals ← convert Value.toNat usual.maxProposals args[5]?
  let spanStep ← (SpanStep.ofName spanStep).mapError .refused
  let pairDepth ← (PairPolicy.ofName pairDepth).mapError .refused
  let pairSize ← (PairPolicy.ofName pairSize).mapError .refused
  return { minLen, maxLen, spanStep, pairDepth, pairSize, maxProposals }

end Call
end Scripting
end GrammarInduction
