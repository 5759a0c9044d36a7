import GrammarInduction.Catalogue
import GrammarInduction.Forest.Node
import GrammarInduction.Neighbourhood.Memo

/-!
Candidates for a grouping: a run of elements together with the places at which it occurs and the
neighbourhoods that it has there. The likeness of two candidates is that of their most alike
neighbourhoods.
-/
namespace GrammarInduction

def Forest.labels (nodes : Forest) : List String := nodes.map Node.label

/-- The labels of a list of nodes, joined; runs with equal joined labels count as one candidate. -/
def Forest.rendered (nodes : Forest) : String := String.join nodes.labels

/-- A run of elements that may become a node, with its occurrences. -/
structure Candidate where
  id : String
  elements : List Node
  /-- The least depth of a node at which the run occurs. -/
  depth : Nat
  /-- How many candidates were found before. -/
  seq : Nat := 0
  occurrences : Nat := 0
  neighbourhoods : Catalogue Neighbourhood Nat := .empty
  sources : Catalogue Site (List Span) := .empty
  deriving Inhabited

namespace Candidate

def rendered (c : Candidate) : String := Forest.rendered c.elements

def length (c : Candidate) : Nat := c.elements.length

def isEmpty (c : Candidate) : Bool := c.elements.isEmpty

def isSingle (c : Candidate) : Bool := c.length == 1

def text (c : Candidate) : String := Forest.text c.elements

def addSource (c : Candidate) (site : Site) (span : Span) : Candidate :=
  { c with
    sources := c.sources.upsert site fun old => old.getD [] ++ [span]
    occurrences := c.occurrences + 1 }

def addNeighbourhood (c : Candidate) (n : Neighbourhood) : Candidate :=
  { c with neighbourhoods := c.neighbourhoods.upsert n fun old => old.getD 0 + 1 }

/-- Adds an occurrence at a node of the given depth. -/
def record (c : Candidate) (site : Site) (span : Span) (n : Neighbourhood) (depth : Nat) :
    Candidate :=
  let c := (c.addSource site span).addNeighbourhood n
  { c with depth := min c.depth depth }

/-- The number of recorded neighbourhoods, repetitions included. -/
def neighbourhoodTotal (c : Candidate) : Nat := c.neighbourhoods.values.foldl (· + ·) 0

def spanCount (c : Candidate) : Nat := c.sources.values.foldl (fun n spans => n + spans.length) 0

def sortedNeighbourhoods (c : Candidate) : List (Neighbourhood × Nat) :=
  c.neighbourhoods.entries.mergeSort fun a b => (a.1.order b.1).isLE

def sortedSources (c : Candidate) : List (Site × List Span) :=
  c.sources.entries.mergeSort fun a b => (a.1.order b.1).isLE

def neighbourhoodPairs (a b : Candidate) : List (Neighbourhood × Neighbourhood) :=
  a.neighbourhoods.keys.flatMap fun x => b.neighbourhoods.keys.map fun y => (x, y)

/-- The greatest likeness of the pairs and `best`; the search ends at the whole. -/
def bestLikeness (best : Nat) : List (Neighbourhood × Neighbourhood) → Nat
  | [] => best
  | (x, y) :: rest =>
    let best := max best (Likeness.neighbourhoods x y)
    if Likeness.whole ≤ best then best else bestLikeness best rest

/-- The likeness of the most alike neighbourhoods. -/
def likeness (a b : Candidate) : Nat := bestLikeness 0 (neighbourhoodPairs a b)

/-- The greatest likeness with a memo at hand. -/
def bestLikenessBy (memo : LikenessMemo) (best : Nat) :
    List (Neighbourhood × Neighbourhood) → Nat × LikenessMemo
  | [] => (best, memo)
  | (x, y) :: rest =>
    let (score, memo) := memo.neighbourhoods x y
    let best := max best score
    if Likeness.whole ≤ best then (best, memo) else bestLikenessBy memo best rest

def likenessBy (memo : LikenessMemo) (a b : Candidate) : Nat × LikenessMemo :=
  bestLikenessBy memo 0 (neighbourhoodPairs a b)

@[simp] theorem elements_record (c : Candidate) (s : Site) (r : Span) (n : Neighbourhood)
    (d : Nat) : (c.record s r n d).elements = c.elements := rfl
@[simp] theorem id_record (c : Candidate) (s : Site) (r : Span) (n : Neighbourhood)
    (d : Nat) : (c.record s r n d).id = c.id := rfl
@[simp] theorem seq_record (c : Candidate) (s : Site) (r : Span) (n : Neighbourhood)
    (d : Nat) : (c.record s r n d).seq = c.seq := rfl
@[simp] theorem occurrences_record (c : Candidate) (s : Site) (r : Span) (n : Neighbourhood)
    (d : Nat) : (c.record s r n d).occurrences = c.occurrences + 1 := rfl

theorem bestLikenessBy_fst {memo : LikenessMemo} (h : memo.Sound) (best : Nat)
    (ps : List (Neighbourhood × Neighbourhood)) :
    (bestLikenessBy memo best ps).1 = bestLikeness best ps := by
  induction ps generalizing memo best with
  | nil => rfl
  | cons p ps ih =>
    simp only [bestLikenessBy, bestLikeness, LikenessMemo.neighbourhoods_fst h]
    split
    · rfl
    · exact ih (LikenessMemo.sound_neighbourhoods h _ _) _

/-- A sound memo does not change the likeness of candidates. -/
theorem likenessBy_fst {memo : LikenessMemo} (h : memo.Sound) (a b : Candidate) :
    (likenessBy memo a b).1 = likeness a b := bestLikenessBy_fst h 0 _

end Candidate
end GrammarInduction
