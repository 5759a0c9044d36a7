import GrammarInduction.Failure
import GrammarInduction.Forest.Node
import GrammarInduction.Word

/-!
Values that a script passes, and how they become arguments. Trees cross over as triples of label,
terminal flag and child list; a terminal with children is not let in.
-/
namespace GrammarInduction
namespace Scripting

inductive Value
  | nothing
  | flag (b : Bool)
  | integer (n : Int)
  | text (s : String)
  | list (items : List Value)
  | tuple (items : List Value)
  /-- Any other value. -/
  | other
  deriving Inhabited, Repr

inductive CallError
  | wrongType
  | outOfRange
  | refused (refusal : Refusal)
  | terminalWithChildren (label : String)
  | unknownId (id : String)
  | aborted (fault : Fault)
  deriving DecidableEq, Repr

namespace CallError

def message : CallError → String
  | wrongType => "argument of the wrong type"
  | outOfRange => "number out of range"
  | refused refusal => refusal.message
  | terminalWithChildren label => "terminal " ++ Text.quoted label ++ " must not have children"
  | unknownId id => "unknown bubble id " ++ Text.quoted id ++ "; call propose() first"
  | aborted fault => "grouping session panicked during propose(): " ++ fault.message

end CallError

namespace Value

/-- A number of 64 bits without sign; a flag counts as one or zero. -/
def toNat : Value → Except CallError Nat
  | integer n => if 0 ≤ n ∧ n ≤ wordMax then .ok n.toNat else .error .outOfRange
  | flag b => .ok b.toNat
  | _ => .error .wrongType

def toText : Value → Except CallError String
  | text s => .ok s
  | _ => .error .wrongType

/-- The items of a list or tuple; a text is no list of its characters. -/
def items : Value → Except CallError (List Value)
  | list vs => .ok vs
  | tuple vs => .ok vs
  | _ => .error .wrongType

def toTexts (v : Value) : Except CallError (List String) := do
  let vs ← v.items
  vs.mapM toText

def toTextLists (v : Value) : Except CallError (List (List String)) := do
  let vs ← v.items
  vs.mapM toTexts

mutual
/-- The triple of a tree. -/
def ofNode : Node → Value
  | ⟨l, t, cs⟩ => tuple [text l, flag t, list (ofNodes cs)]
def ofNodes : List Node → List Value
  | [] => []
  | n :: ns => ofNode n :: ofNodes ns
end

/-- The list of the triples of a forest. -/
def ofForest (trees : Forest) : Value := list (ofNodes trees)

mutual
/-- The tree of a triple. Children come before their parent, so of several terminals with children
the first one from below and from the left is reported. -/
def toNode : Value → Except CallError Node
  | tuple [text l, flag t, children] => do
    let cs ← toForest children
    if t && !cs.isEmpty then .error (.terminalWithChildren l) else .ok ⟨l, t, cs⟩
  | _ => .error .wrongType
/-- The trees of a list or tuple of triples, which is how forests and child lists are read. -/
def toForest : Value → Except CallError Forest
  | list vs => toNodes vs
  | tuple vs => toNodes vs
  | _ => .error .wrongType
def toNodes : List Value → Except CallError (List Node)
  | [] => .ok []
  | v :: vs => do
    let n ← toNode v
    let ns ← toNodes vs
    return n :: ns
end

theorem toForest_eq (v : Value) : v.toForest = v.items >>= toNodes := by cases v <;> rfl

end Value
end Scripting
end GrammarInduction
