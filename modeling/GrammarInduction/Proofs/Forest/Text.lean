import Mathlib.Tactic.Lemma
import GrammarInduction.Forest.Node

/-!
The texts of trees. The worklist reads trees in order, so the text of a nonterminal is that of its
children, one after the other, and a terminal gives its label whatever is below it.
-/
namespace GrammarInduction

namespace Node

lemma readings_eq_join (ns : List Node) : readings ns = String.join (ns.map reading) := by
  induction ns with
  | nil => rfl
  | cons n ns ih => rw [readings, ih, List.map_cons, String.join_cons]

lemma readings_append (as bs : List Node) : readings (as ++ bs) = readings as ++ readings bs := by
  rw [readings_eq_join, readings_eq_join, readings_eq_join, List.map_append, String.join_append]

end Node

namespace Forest

/-- The worklist reads its trees in order. -/
theorem textOnto_eq (out : String) (work : Forest) :
    textOnto out work = out ++ Node.readings work := by
  induction out, work using textOnto.induct with
  | case1 out => rw [textOnto, Node.readings, String.append_empty]
  | case2 out n rest ht ih =>
    obtain ⟨l, t, cs⟩ := n
    obtain rfl : t = true := ht
    rw [textOnto, if_pos rfl, ih, Node.readings, Node.reading, String.append_assoc]
  | case3 out n rest ht ih =>
    obtain ⟨l, t, cs⟩ := n
    obtain rfl : t = false := by simpa using ht
    rw [textOnto, if_neg ht, ih, Node.readings_append, Node.readings, Node.reading]

end Forest

namespace Node

/-- The text of a tree is its reading. -/
theorem text_eq_reading (n : Node) : n.text = n.reading := by
  rw [text, Forest.textOnto_eq, readings_eq_join, List.map_singleton, String.join_cons,
    String.join_nil, String.append_empty, String.empty_append]

/-- A terminal derives its label, whatever is below it, and a nonterminal what its children derive,
from left to right. -/
theorem text_mk (l : String) (t : Bool) (cs : List Node) :
    (Node.mk l t cs).text = if t then l else String.join (cs.map text) := by
  cases t with
  | true => rw [text_eq_reading, reading, if_pos rfl]
  | false =>
    rw [text_eq_reading, reading, readings_eq_join, if_neg Bool.false_ne_true,
      List.map_congr_left fun n _ => (text_eq_reading n).symm]

@[simp] lemma text_terminal (l : String) : (terminal l).text = l := by
  rw [terminal, text_mk, if_pos rfl]

lemma text_branch (l : String) (cs : List Node) :
    (branch l cs).text = String.join (cs.map text) := by
  rw [branch, text_mk, if_neg Bool.false_ne_true]

end Node

namespace Forest

/-- The worklist adds the texts of its trees to what was read before. -/
theorem textOnto_eq_join (out : String) (work : Forest) :
    textOnto out work = out ++ String.join (work.map Node.text) := by
  rw [textOnto_eq, Node.readings_eq_join,
    List.map_congr_left fun n _ => (Node.text_eq_reading n).symm]

lemma text_eq_join (trees : Forest) : trees.text = String.join (trees.map Node.text) := by
  have h : ∀ (ns : List Node) (out : String),
      ns.foldl (fun out n => textOnto out [n]) out = out ++ String.join (ns.map Node.text) := by
    intro ns
    induction ns with
    | nil => simp
    | cons n ns ih =>
      intro out
      rw [List.foldl_cons, ih, textOnto_eq_join, List.map_singleton, String.join_cons,
        String.join_nil, String.append_empty, List.map_cons, String.join_cons, String.append_assoc]
  rw [text, h, String.empty_append]

end Forest
end GrammarInduction
