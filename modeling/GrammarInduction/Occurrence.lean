import GrammarInduction.Failure

/-!
Where a run of children occurs: the site is a node, given by its tree and the way down to it; the
span is a range of child positions with both ends.
-/
namespace GrammarInduction

/-- The lexicographic order of two lists under a key of their elements. -/
def lexOrder {α : Type _} (key : α → Nat) : List α → List α → Ordering
  | [], [] => .eq
  | [], _ :: _ => .lt
  | _ :: _, [] => .gt
  | a :: as, b :: bs => (compare (key a) (key b)).then (lexOrder key as bs)

/-- A node of a forest: the number of its tree and the child positions that lead to it. -/
structure Site where
  tree : Nat
  path : List Nat
  deriving Inhabited, DecidableEq, Repr

def Site.order (a b : Site) : Ordering := (compare a.tree b.tree).then (lexOrder id a.path b.path)

/-- A range of child positions, both ends included. -/
structure Span where
  first : Nat
  last : Nat
  deriving Inhabited, DecidableEq, Repr

namespace Span

/-- A span from its ends, which must stand in order. -/
def of (first last : Nat) : Except Fault Span :=
  if first ≤ last then .ok ⟨first, last⟩ else .error .reversedSpan

def isDisjoint (a b : Span) : Bool := a.last < b.first || b.last < a.first

def contains (a b : Span) : Bool := a.first ≤ b.first && b.last ≤ a.last

def order (a b : Span) : Ordering := (compare a.first b.first).then (compare a.last b.last)

def Ordered (a : Span) : Prop := a.first ≤ a.last

def Covers (a : Span) (i : Nat) : Prop := a.first ≤ i ∧ i ≤ a.last

theorem of_eq_ok_iff {first last : Nat} {s : Span} :
    of first last = .ok s ↔ s = ⟨first, last⟩ ∧ s.Ordered := by
  by_cases h : first ≤ last
  · constructor
    · intro hs
      have : (⟨first, last⟩ : Span) = s := by simpa [of, h] using hs
      subst this
      exact ⟨rfl, h⟩
    · rintro ⟨rfl, _⟩; simp [of, h]
  · constructor
    · intro hs; simp [of, h] at hs
    · rintro ⟨rfl, h'⟩; exact absurd h' h

/-- Disjoint spans are those that share no position. -/
theorem isDisjoint_iff {a b : Span} (ha : a.Ordered) (hb : b.Ordered) :
    a.isDisjoint b = true ↔ ∀ i, ¬(a.Covers i ∧ b.Covers i) := by
  simp only [Ordered, Covers, isDisjoint, Bool.or_eq_true, decide_eq_true_eq] at *
  constructor
  · intro h i; omega
  · intro h
    have h1 := h a.first
    have h2 := h b.first
    omega

/-- A span covers another one when it covers its positions. -/
theorem contains_iff {a b : Span} (hb : b.Ordered) :
    a.contains b = true ↔ ∀ i, b.Covers i → a.Covers i := by
  simp only [Ordered, Covers, contains, Bool.and_eq_true, decide_eq_true_eq] at *
  constructor
  · intro h i; omega
  · intro h
    have h1 := h b.first
    have h2 := h b.last
    omega

end Span
end GrammarInduction
