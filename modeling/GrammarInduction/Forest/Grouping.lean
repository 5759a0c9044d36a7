import GrammarInduction.Failure
import GrammarInduction.Forest.Node

/-!
Applying a grouping: in every child list the leftmost run with the labels of the pattern is
collapsed into one new node, again and again, until no such run is left. Children come before
their parents; terminals stay as they are.
-/
namespace GrammarInduction

/-- The labels of a run and the label of the node that replaces it. -/
structure Grouping where
  pattern : List String
  id : String
  deriving Inhabited, DecidableEq, Repr

namespace Grouping

def startsWith : List String → List Node → Bool
  | [], _ => true
  | _ :: _, [] => false
  | l :: ls, n :: ns => n.label == l && startsWith ls ns

theorem startsWith_iff {ls : List String} {ns : List Node} :
    startsWith ls ns = true ↔ ls <+: ns.map Node.label := by
  induction ls generalizing ns with
  | nil => simp [startsWith]
  | cons l ls ih =>
    cases ns with
    | nil => simp [startsWith]
    | cons n ns =>
      simp only [startsWith, Bool.and_eq_true, beq_iff_eq, ih, List.map_cons,
        List.cons_prefix_cons]
      exact and_congr_left fun _ => eq_comm

def matchesHere (g : Grouping) (nodes : List Node) : Bool := startsWith g.pattern nodes

/-- The node that replaces a run. -/
def node (g : Grouping) (run : List Node) : Node := .branch g.id run

/-- Collapses the leftmost run with the labels of the pattern. -/
def collapseFirst? (g : Grouping) : List Node → Option (List Node)
  | [] => none
  | n :: ns =>
    if g.matchesHere (n :: ns) then
      some (g.node ((n :: ns).take g.pattern.length) :: (n :: ns).drop g.pattern.length)
    else (g.collapseFirst? ns).map (n :: ·)

/-- Collapses leftmost runs until none is left, at most `fuel` times. -/
def settleWithin (g : Grouping) : Nat → List Node → Option (List Node)
  | 0, nodes => if (g.collapseFirst? nodes).isNone then some nodes else none
  | fuel + 1, nodes =>
    match g.collapseFirst? nodes with
    | none => some nodes
    | some next => g.settleWithin fuel next

/-- Collapses leftmost runs until none is left. Every collapse of two nodes or more shortens the
list, and a node that replaces a single one of another label is matched no more, so a list that
settles does so within its own length. -/
def settle (g : Grouping) (nodes : List Node) : Option (List Node) :=
  g.settleWithin nodes.length nodes

mutual
def applyNode (g : Grouping) : Node → Option Node
  | ⟨l, true, cs⟩ => some ⟨l, true, cs⟩
  | ⟨l, false, cs⟩ => do
    let inner ← g.applyNodes cs
    let settled ← g.settle inner
    return ⟨l, false, settled⟩
def applyNodes (g : Grouping) : List Node → Option (List Node)
  | [] => some []
  | n :: ns => do
    let n' ← g.applyNode n
    let ns' ← g.applyNodes ns
    return n' :: ns'
end

end Grouping

def Forest.apply (trees : Forest) (g : Grouping) : Except Fault Forest :=
  if g.pattern = [] then .error .emptyPattern
  else match g.applyNodes trees with
    | some result => .ok result
    | none => .error .endlessCollapse

end GrammarInduction
