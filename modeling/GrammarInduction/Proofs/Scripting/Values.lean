import GrammarInduction.Proofs.Forest.Rules
import GrammarInduction.Scripting.Value

/-!
What crosses over to a script and back. A tree without terminals that hold children comes back as
it was, and so do texts; of any other tree the first such terminal is reported.
-/
namespace GrammarInduction

namespace Node

mutual
/-- The labels of the terminals that hold children, from below and from the left. -/
def laden : Node → List String
  | ⟨l, t, cs⟩ => ladenOf cs ++ if t && !cs.isEmpty then [l] else []
def ladenOf : List Node → List String
  | [] => []
  | n :: ns => n.laden ++ ladenOf ns
end

lemma proper_iff {l : String} {t : Bool} {cs : List Node} :
    (Node.mk l t cs).Proper ↔ (t = true → cs = []) ∧ ∀ c ∈ cs, c.Proper := by
  constructor
  · intro h
    cases h with
    | terminal l => exact ⟨fun _ => rfl, fun _ hc => absurd hc List.not_mem_nil⟩
    | branch h => exact ⟨nofun, h⟩
  · rintro ⟨hempty, hcs⟩
    cases t with
    | true =>
      obtain rfl := hempty rfl
      exact .terminal l
    | false => exact .branch hcs

lemma ladenOf_eq_nil_iff {ns : List Node} : ladenOf ns = [] ↔ ∀ n ∈ ns, n.laden = [] := by
  induction ns with
  | nil => simp [ladenOf]
  | cons n ns ih => rw [ladenOf, List.append_eq_nil_iff, ih, List.forall_mem_cons]

/-- No terminal is reported exactly if none holds children. -/
theorem laden_eq_nil_iff {n : Node} : n.laden = [] ↔ n.Proper := by
  induction n using Node.induct with
  | step l t cs ih =>
    have hcs : (∀ c ∈ cs, c.laden = []) ↔ ∀ c ∈ cs, c.Proper :=
      forall₂_congr fun c hc => ih c hc
    rw [laden, List.append_eq_nil_iff, ladenOf_eq_nil_iff, proper_iff, hcs, and_comm]
    simp

end Node

namespace Scripting
namespace Value

open Node

/-- A value, or the report of the first of some terminals with children. -/
def unlessLaden {α : Type} (value : α) : List String → Except CallError α
  | [] => .ok value
  | l :: _ => .error (.terminalWithChildren l)

def ofTexts (texts : List String) : Value := list (texts.map text)

lemma mapM_toText (texts : List String) : (texts.map text).mapM toText = .ok texts := by
  induction texts with
  | nil => rfl
  | cons t ts ih => simp only [List.map_cons, List.mapM_cons, ih]; rfl

@[simp] lemma toTexts_ofTexts (texts : List String) : (ofTexts texts).toTexts = .ok texts :=
  mapM_toText texts

/-- Trees that cross over one by one cross over together. -/
theorem toNodes_ofNodes {ns : List Node}
    (h : ∀ n ∈ ns, toNode (ofNode n) = unlessLaden n n.laden) :
    toNodes (ofNodes ns) = unlessLaden ns (ladenOf ns) := by
  induction ns with
  | nil => rfl
  | cons n ns ih =>
    obtain ⟨hn, hns⟩ := List.forall_mem_cons.mp h
    rw [ofNodes, toNodes, hn, ih hns, ladenOf]
    cases n.laden with
    | nil => cases ladenOf ns <;> rfl
    | cons l ls => rfl

/-- A tree comes back as it was, unless some terminal holds children. -/
theorem toNode_ofNode (n : Node) : toNode (ofNode n) = unlessLaden n n.laden := by
  induction n using Node.induct with
  | step l t cs ih =>
    rw [ofNode, toNode, toForest, toNodes_ofNodes ih, laden]
    cases ladenOf cs with
    | nil => cases h : t && !cs.isEmpty <;> simp [unlessLaden, bind, Except.bind, h]
    | cons l ls => rfl

/-- A forest whose terminals hold no children comes back from a script. -/
theorem toForest_ofForest {trees : Forest} (h : ∀ n ∈ trees, n.Proper) :
    (ofForest trees).toForest = .ok trees := by
  have hladen : ladenOf trees = [] :=
    ladenOf_eq_nil_iff.mpr fun n hn => laden_eq_nil_iff.mpr (h n hn)
  rw [ofForest, toForest, toNodes_ofNodes fun n _ => toNode_ofNode n, hladen, unlessLaden]

end Value
end Scripting
end GrammarInduction
