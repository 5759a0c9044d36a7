import GrammarInduction.NameSupply
import GrammarInduction.Survey.Visit

/-!
Surveys: all candidates of a forest with their occurrences. Runs with equal joined labels share a
candidate; a candidate that occurs only as a whole child list is dropped at the end. Symbols and
names go through the survey and keep what they got, also when it cannot be finished.
-/
namespace GrammarInduction

/-- What a survey takes from its surroundings and gives back: known symbols and fresh names. -/
structure Tables where
  symbols : SymbolTable := {}
  names : NameSupply := {}
  deriving Inhabited, DecidableEq, Repr

structure Tally where
  nodesVisited : Nat := 0
  spansConsidered : Nat := 0
  singleTerminals : Nat := 0
  unbalanced : Nat := 0
  wrappersSuppressed : Nat := 0
  deriving Inhabited, DecidableEq, Repr

structure Survey where
  /-- The candidates under their joined labels. -/
  candidates : Catalogue String Candidate := .empty
  tally : Tally := {}
  /-- The joined labels of the candidates that occurred only as whole child lists. -/
  suppressed : List String := []
  /-- The texts of the unbalanced runs, in the order of the survey. -/
  unbalancedTexts : List String := []
  deriving Inhabited

namespace Survey

structure Progress where
  tables : Tables
  candidates : Catalogue String Candidate := .empty
  /-- How often joined labels were those of a whole child list. -/
  wrappers : Catalogue String Nat := .empty
  tally : Tally := {}
  unbalancedTexts : List String := []
  deriving Inhabited

namespace Progress

def noteWrapper (p : Progress) (rendered : String) : Progress :=
  { p with wrappers := p.wrappers.upsert rendered fun old => old.getD 0 + 1 }

/-- The candidate of a run and the names after it: the known one, or else a new one. -/
def candidateFor (p : Progress) (v : Visit) (r : Run) (rendered : String) :
    Candidate × NameSupply :=
  match p.candidates.get? rendered with
  | some c => (c, p.tables.names)
  | none =>
    let (id, names) := p.tables.names.fresh
    ({ id, elements := v.elements r, depth := v.depth, seq := p.candidates.size }, names)

def record (p : Progress) (v : Visit) (symbols : List Neighbour) (r : Run) : Progress :=
  let rendered := Forest.rendered (v.elements r)
  let p := if v.isWhole r then p.noteWrapper rendered else p
  let (c, names) := p.candidateFor v r rendered
  let c := c.record v.site r.span (v.neighbourhood symbols r) v.depth
  { p with
    tables := { p.tables with names }
    candidates := p.candidates.insert rendered c }

def consider (v : Visit) (symbols : List Neighbour) (p : Progress) (r : Run) : Progress :=
  let p := { p with tally.spansConsidered := p.tally.spansConsidered + 1 }
  match v.verdict r with
  | .loneTerminal => { p with tally.singleTerminals := p.tally.singleTerminals + 1 }
  | .unbalanced text =>
    { p with
      tally.unbalanced := p.tally.unbalanced + 1
      unbalancedTexts := p.unbalancedTexts ++ [text] }
  | .admissible => p.record v symbols r

/-- Interns the children of a node and looks at its runs. -/
def enter (settings : Settings) (p : Progress) (v : Visit) : Progress :=
  let (ids, symbols) := p.tables.symbols.internAll v.labels
  let p := { p with
    tally.nodesVisited := p.tally.nodesVisited + 1
    tables := { p.tables with symbols } }
  (settings.runs v.size).1.foldl (consider v (ids.map .symbol)) p

/-- Whether a candidate occurred as often as it was a whole child list. -/
def isWrapper (p : Progress) (rendered : String) (c : Candidate) : Bool :=
  p.wrappers.get? rendered == some c.occurrences

/-- Drops the candidates that occurred only as whole child lists. -/
def finish (p : Progress) : Survey :=
  let suppressed := (p.candidates.filter p.isWrapper).keys
  { candidates := p.candidates.filter fun rendered c => !p.isWrapper rendered c
    tally := { p.tally with wrappersSuppressed := suppressed.length }
    suppressed
    unbalancedTexts := p.unbalancedTexts }

end Progress

def overflows (settings : Settings) (v : Visit) : Bool := (settings.runs v.size).2

/-- Surveys a forest. Invalid settings are refused at once; an overflow ends the survey at the
node where it arises. -/
def ofForest (settings : Settings) (trees : Forest) (tables : Tables) :
    Except Failure Survey × Tables :=
  match settings.check with
  | .error refusal => (.error (.refused refusal), tables)
  | .ok settings =>
    let visits := trees.visits
    let before := visits.takeWhile fun v => !overflows settings v
    let rest := visits.drop before.length
    let p := (before ++ rest.take 1).foldl (Progress.enter settings) { tables }
    match rest with
    | [] => (.ok p.finish, p.tables)
    | _ :: _ => (.error (.faulted .lengthOverflow), p.tables)

end Survey
end GrammarInduction
