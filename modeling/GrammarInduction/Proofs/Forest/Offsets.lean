import Mathlib.Logic.Relation
import GrammarInduction.Proofs.Forest.Leaves

/-!
Where the terminals of a node begin in its tree. When runs of nodes are put under new ones no
terminal moves, so every node keeps its offset.
-/
namespace GrammarInduction
namespace Node

mutual
/-- The nodes of a tree that are reached through nonterminals, each with the number of terminals
before it. -/
def offsets (start : Nat) : Node → List (Nat × Node)
  | ⟨l, true, cs⟩ => [(start, ⟨l, true, cs⟩)]
  | ⟨l, false, cs⟩ => (start, ⟨l, false, cs⟩) :: offsetsOf start cs
def offsetsOf (start : Nat) : List Node → List (Nat × Node)
  | [] => []
  | n :: ns => n.offsets start ++ offsetsOf (start + n.leaves.length) ns
end

@[simp] lemma offsetsOf_nil (start : Nat) : offsetsOf start [] = [] := by rw [offsetsOf]

lemma offsetsOf_cons (start : Nat) (n : Node) (ns : List Node) :
    offsetsOf start (n :: ns) = n.offsets start ++ offsetsOf (start + n.leaves.length) ns := by
  rw [offsetsOf]

lemma offsets_terminal (start : Nat) (l : String) :
    (terminal l).offsets start = [(start, terminal l)] := by rw [terminal, offsets]

lemma offsets_branch (start : Nat) (l : String) (cs : List Node) :
    (branch l cs).offsets start = (start, branch l cs) :: offsetsOf start cs := by
  rw [branch, offsets]

lemma offsetsOf_append (start : Nat) (ns ms : List Node) :
    offsetsOf start (ns ++ ms) =
      offsetsOf start ns ++ offsetsOf (start + (ns.flatMap leaves).length) ms := by
  induction ns generalizing start with
  | nil => simp
  | cons n ns ih =>
    rw [List.cons_append, offsetsOf_cons, offsetsOf_cons, ih, List.flatMap_cons,
      List.length_append, List.append_assoc, Nat.add_assoc]

lemma mem_offsetsOf_branch (start : Nat) (ns ms : List Node) (l : String) (cs : List Node) :
    (start + (ns.flatMap leaves).length, branch l cs) ∈
      offsetsOf start (ns ++ branch l cs :: ms) := by
  simp [offsetsOf_append, offsetsOf_cons, offsets_branch]

/-- A run of nodes is put under a new one. -/
inductive Groups : List Node → List Node → Prop
  | intro (before run after : List Node) (l : String) :
      Groups (before ++ run ++ after) (before ++ .branch l run :: after)

/-- Any number of runs are put under new nodes, one after the other. -/
abbrev GroupsTo : List Node → List Node → Prop := Relation.ReflTransGen Groups

variable {ns ms : List Node}

lemma Groups.append_right (h : Groups ns ms) (more : List Node) :
    Groups (ns ++ more) (ms ++ more) := by
  obtain ⟨before, run, after, l⟩ := h
  simpa using Groups.intro before run (after ++ more) l

lemma Groups.leaves_eq (h : Groups ns ms) : ms.flatMap leaves = ns.flatMap leaves := by
  obtain ⟨before, run, after, l⟩ := h
  simp [leaves_branch]

/-- A new node stands at the offset of the first node below it. -/
theorem Groups.sublist_offsets (h : Groups ns ms) (start : Nat) :
    (offsetsOf start ns).Sublist (offsetsOf start ms) := by
  obtain ⟨before, run, after, l⟩ := h
  rw [List.append_assoc, offsetsOf_append, offsetsOf_append start before, offsetsOf_append,
    offsetsOf_cons, offsets_branch, leaves_branch]
  exact (List.sublist_cons_self _ _).append_right _ |>.append_left _

lemma GroupsTo.append_right (h : GroupsTo ns ms) (more : List Node) :
    GroupsTo (ns ++ more) (ms ++ more) := by
  induction h with
  | refl => exact .refl
  | tail _ hstep ih => exact ih.tail (hstep.append_right more)

lemma GroupsTo.leaves_eq (h : GroupsTo ns ms) : ms.flatMap leaves = ns.flatMap leaves := by
  induction h with
  | refl => rfl
  | tail _ hstep ih => exact hstep.leaves_eq.trans ih

lemma GroupsTo.sublist_offsets (h : GroupsTo ns ms) (start : Nat) :
    (offsetsOf start ns).Sublist (offsetsOf start ms) := by
  induction h with
  | refl => exact .refl _
  | tail _ hstep ih => exact ih.trans (hstep.sublist_offsets start)

end Node
end GrammarInduction
