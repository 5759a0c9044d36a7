import GrammarInduction.Forest.Node
import GrammarInduction.NameSupply

/-!
First forests from examples. Each distinct token has a class node over its terminal; a segment
from an opening bracket to the next closing one becomes a node of its own. A closing bracket
without an opening one is an ordinary token, and segments that stay open end with the example.
-/
namespace GrammarInduction

def rootLabel : String := "START"

def opensSegment (token : String) : Bool := token == "(" || token == "[" || token == "\x7b"

def closesSegment (token : String) : Bool := token == ")" || token == "]" || token == "\x7d"

def distinctTokens (tokens : List String) : List String :=
  tokens.eraseDups.mergeSort fun a b => decide (a ≤ b)

def nameTokens (names : NameSupply) : List String → List (String × String) × NameSupply
  | [] => ([], names)
  | token :: rest =>
    let (name, names) := names.fresh
    let (classes, names) := nameTokens names rest
    ((token, name) :: classes, names)

/-- The children read so far of the innermost open segment and of those around it. -/
structure OpenSegments where
  current : List Node := []
  outer : List (List Node) := []
  deriving Inhabited, Repr

namespace OpenSegments

def add (s : OpenSegments) (n : Node) : OpenSegments := { s with current := s.current ++ [n] }

def begin (s : OpenSegments) : OpenSegments := ⟨[], s.current :: s.outer⟩

/-- Reads a token with its class node. -/
def read (s : OpenSegments) (names : NameSupply) (token : String) (leaf : Node) :
    OpenSegments × NameSupply :=
  if opensSegment token then (s.begin.add leaf, names)
  else if closesSegment token then
    match s.outer with
    | [] => (s.add leaf, names)
    | parent :: outer =>
      let (name, names) := names.fresh
      (⟨parent ++ [.branch name (s.current ++ [leaf])], outer⟩, names)
  else (s.add leaf, names)

/-- Ends all open segments, the innermost first. -/
def finish (current : List Node) (names : NameSupply) :
    List (List Node) → List Node × NameSupply
  | [] => (current, names)
  | parent :: outer =>
    let (name, names) := names.fresh
    finish (parent ++ [.branch name current]) names outer

end OpenSegments

def classNode (classes : List (String × String)) (token : String) : Node :=
  .branch ((classes.lookup token).getD token) [.terminal token]

def readTokens (classes : List (String × String)) (s : OpenSegments) (names : NameSupply) :
    List String → OpenSegments × NameSupply
  | [] => (s, names)
  | token :: rest =>
    let (s, names) := s.read names token (classNode classes token)
    readTokens classes s names rest

def seedTree (classes : List (String × String)) (names : NameSupply) (tokens : List String) :
    Node × NameSupply :=
  let (s, names) := readTokens classes {} names tokens
  let (children, names) := OpenSegments.finish s.current names s.outer
  (.branch rootLabel children, names)

def seedTrees (classes : List (String × String)) (names : NameSupply) :
    List (List String) → Forest × NameSupply
  | [] => ([], names)
  | tokens :: rest =>
    let (tree, names) := seedTree classes names tokens
    let (trees, names) := seedTrees classes names rest
    (tree :: trees, names)

/-- The first forest of examples: names for the classes come before those of segments. -/
def seedForest (names : NameSupply) (examples : List (List String)) : Forest × NameSupply :=
  let (classes, names) := nameTokens names (distinctTokens examples.flatten)
  seedTrees classes names examples

end GrammarInduction
