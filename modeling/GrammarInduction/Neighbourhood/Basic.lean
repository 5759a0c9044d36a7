import GrammarInduction.SymbolTable
import GrammarInduction.Occurrence

/-!
Neighbourhoods of runs: up to four neighbours on either side, given by the numbers of their
labels. An end of the tree counts as a neighbour, and so does the edge of a node behind which the
next neighbour is hidden.
-/
namespace GrammarInduction

/-- What stands next to a run. -/
inductive Neighbour
  /-- The left end of the tree. -/
  | start
  /-- The right end of the tree. -/
  | stop
  /-- The edge of a node with siblings on that side. -/
  | hidden
  /-- A sibling with an interned label. -/
  | symbol (id : SymbolId)
  deriving Inhabited, DecidableEq, Hashable, Repr

namespace Neighbour

/-- The place of a neighbour in the order: the ends, the hidden one, then symbols by number. -/
def rank : Neighbour → Nat
  | start => 0
  | stop => 1
  | hidden => 2
  | symbol id => 3 + id

theorem rank_injective {a b : Neighbour} (h : a.rank = b.rank) : a = b := by
  cases a <;> cases b <;> simp [rank] at h ⊢ <;> omega

/-- A neighbour in words, with the label of a symbol. -/
def display (table : SymbolTable) : Neighbour → Except Fault String
  | start => .ok "^"
  | stop => .ok "$"
  | hidden => .ok "_"
  | symbol id => table.resolve id

end Neighbour

/-- Neighbours on one side, from left to right. -/
abbrev Side := List Neighbour

namespace Side

def order (a b : Side) : Ordering := lexOrder Neighbour.rank a b

def display (table : SymbolTable) (side : Side) : Except Fault String := do
  let words ← side.mapM (Neighbour.display table)
  return " ".intercalate words

end Side

/-- The neighbours of a run, next to it first on the right and last on the left. -/
structure Neighbourhood where
  left : Side
  right : Side
  deriving Inhabited, DecidableEq, Repr

namespace Neighbourhood

/-- How many neighbours are kept on a side. -/
def width : Nat := 4

def lastOf (side : Side) : Side := side.drop (side.length - width)

/-- The neighbourhood that keeps the nearest neighbours of both sides. -/
def nearest (left right : Side) : Neighbourhood := ⟨lastOf left, right.take width⟩

def order (a b : Neighbourhood) : Ordering := (a.left.order b.left).then (a.right.order b.right)

/-- A neighbourhood in words, around a gap for the run. -/
def display (table : SymbolTable) (n : Neighbourhood) : Except Fault String := do
  let left ← n.left.display table
  let right ← n.right.display table
  return left ++ "[...]" ++ right

theorem length_left_nearest (l r : Side) : (nearest l r).left.length ≤ width := by
  simp only [nearest, lastOf, List.length_drop]; omega

theorem length_right_nearest (l r : Side) : (nearest l r).right.length ≤ width :=
  List.length_take_le width r

end Neighbourhood
end GrammarInduction
