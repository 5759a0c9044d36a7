import GrammarInduction.Failure

/-!
Symbol tables: distinct labels numbered in the order of their first interning. The table is the
list of its labels, so the number of a label is its position.
-/
namespace GrammarInduction

abbrev SymbolId := Nat

/-- Interned labels, each at the position that is its number. -/
structure SymbolTable where
  labels : List String := []
  deriving Inhabited, DecidableEq, Repr

namespace SymbolTable

def size (t : SymbolTable) : Nat := t.labels.length

def isEmpty (t : SymbolTable) : Bool := t.labels.isEmpty

def find? (t : SymbolTable) (label : String) : Option SymbolId :=
  if label ∈ t.labels then some (t.labels.idxOf label) else none

/-- The number of a label; a new label gets the next one. -/
def intern (t : SymbolTable) (label : String) : SymbolId × SymbolTable :=
  match t.find? label with
  | some i => (i, t)
  | none => (t.size, ⟨t.labels ++ [label]⟩)

def internAll (t : SymbolTable) : List String → List SymbolId × SymbolTable
  | [] => ([], t)
  | label :: rest =>
    let (i, t) := t.intern label
    let (is, t) := t.internAll rest
    (i :: is, t)

def resolve (t : SymbolTable) (i : SymbolId) : Except Fault String :=
  match t.labels[i]? with
  | some label => .ok label
  | none => .error (.unknownSymbol t.size i)

@[simp] theorem labels_empty : ({} : SymbolTable).labels = [] := rfl

theorem find?_eq_none_iff (t : SymbolTable) (label : String) :
    t.find? label = none ↔ label ∉ t.labels := by
  by_cases h : label ∈ t.labels <;> simp [find?, h]

theorem intern_of_mem {t : SymbolTable} {label : String} (h : label ∈ t.labels) :
    t.intern label = (t.labels.idxOf label, t) := by simp [intern, find?, h]

theorem intern_of_not_mem {t : SymbolTable} {label : String} (h : label ∉ t.labels) :
    t.intern label = (t.size, ⟨t.labels ++ [label]⟩) := by simp [intern, find?, h]

end SymbolTable
end GrammarInduction
