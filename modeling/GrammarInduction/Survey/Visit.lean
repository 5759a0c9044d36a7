import GrammarInduction.Balance
import GrammarInduction.Candidate.Basic
import GrammarInduction.Settings.Basic
import GrammarInduction.Word

/-!
What a survey looks at: the root and the nonterminals of each tree, parents before children and
children from left to right, and at each of them the runs of children whose lengths the settings
admit. A lone terminal and a run of unbalanced text are no candidates.
-/
namespace GrammarInduction

/-- A node on the way of a survey, with what stands next to it on either side. -/
structure Visit where
  site : Site
  node : Node
  left : Neighbour
  right : Neighbour
  depth : Nat
  deriving Inhabited, Repr

mutual
/-- The visits of a node and of all nonterminals below it. -/
def Node.visits (tree : Nat) (path : List Nat) (left right : Neighbour) (depth : Nat) :
    Node → List Visit
  | ⟨l, t, cs⟩ =>
    ⟨⟨tree, path⟩, ⟨l, t, cs⟩, left, right, depth⟩ ::
      Node.childVisits tree path left right depth 0 cs
/-- The visits below a node whose children from position `ix` on are given. What stands next to a
node is seen from its first and last child only. -/
def Node.childVisits (tree : Nat) (path : List Nat) (left right : Neighbour) (depth ix : Nat) :
    List Node → List Visit
  | [] => []
  | c :: cs =>
    (if c.isTerminal then []
      else c.visits tree (path ++ [ix]) (if ix = 0 then left else .hidden)
        (if cs.isEmpty then right else .hidden) (depth + 1)) ++
      Node.childVisits tree path left right depth (ix + 1) cs
end

/-- The visits of the trees of a forest, numbered from `tree` on. -/
def Forest.visitsFrom (tree : Nat) : Forest → List Visit
  | [] => []
  | n :: ns => n.visits tree [] .start .stop 0 ++ Forest.visitsFrom (tree + 1) ns

def Forest.visits (trees : Forest) : List Visit := Forest.visitsFrom 0 trees

structure Run where
  start : Nat
  len : Nat
  deriving Inhabited, DecidableEq, Repr

namespace Run

def stop (r : Run) : Nat := r.start + r.len

def elements (r : Run) (children : List Node) : List Node := (children.drop r.start).take r.len

def span (r : Run) : Span := ⟨r.start, r.stop - 1⟩

end Run

namespace Settings

/-- At this start the first length that does not fit leads beyond the words. -/
def overflowsAt (s : Settings) (size start : Nat) : Bool :=
  let len := s.nextLength (size - start)
  len ≤ s.maxLen && wordMax < start + len

/-- The runs at the given starts among `size` children, up to the first overflow. -/
def runsFrom (s : Settings) (size : Nat) : List Nat → List Run × Bool
  | [] => ([], false)
  | i :: is =>
    let here := (s.lengths (size - i)).map (Run.mk i)
    if s.overflowsAt size i then (here, true)
    else
      let (rest, overflow) := s.runsFrom size is
      (here ++ rest, overflow)

/-- The runs among `size` children, from left to right and the shorter first, and whether an
overflow cut them off. -/
def runs (s : Settings) (size : Nat) : List Run × Bool := s.runsFrom size (List.range size)

end Settings

/-- What a survey makes of a run. -/
inductive Verdict
  | loneTerminal
  | unbalanced (text : String)
  | admissible
  deriving Inhabited, DecidableEq, Repr

namespace Visit

def size (v : Visit) : Nat := v.node.children.length

def labels (v : Visit) : List String := Forest.labels v.node.children

def elements (v : Visit) (r : Run) : List Node := r.elements v.node.children

def isWhole (v : Visit) (r : Run) : Bool := r.start == 0 && r.stop == v.size

def verdict (v : Visit) (r : Run) : Verdict :=
  let run := v.elements r
  if r.len == 1 && run.any Node.isTerminal then .loneTerminal
  else
    let text := String.join (run.map Node.text)
    if isBalanced text then .admissible else .unbalanced text

/-- The neighbourhood of a run, where the children have the given symbols. Of the children only
the nearest ones are read, and what stands next to the node only where they do not fill the side. -/
def neighbourhood (v : Visit) (symbols : List Neighbour) (r : Run) : Neighbourhood :=
  let width := Neighbourhood.width
  let left := (if r.start < width then [v.left] else []) ++
    (symbols.take r.start).drop (r.start - width)
  let upto := min symbols.length (r.stop + width)
  let right := (symbols.take upto).drop r.stop ++ (if upto = symbols.length then [v.right] else [])
  .nearest left right

end Visit
end GrammarInduction
