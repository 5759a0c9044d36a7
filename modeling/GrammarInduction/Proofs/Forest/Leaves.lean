import GrammarInduction.Proofs.Forest.Collapse
import GrammarInduction.Proofs.Forest.Text

/-!
The terminals of trees. A grouping puts brackets around runs of nodes, so every tree keeps its root
and the terminals that are read from it, whatever the new name is.
-/
namespace GrammarInduction

namespace Node

mutual
/-- The terminals of a tree from left to right, as far as they are reached through nonterminals. -/
def leaves : Node → List Node
  | ⟨l, true, cs⟩ => [⟨l, true, cs⟩]
  | ⟨_, false, cs⟩ => leavesOf cs
def leavesOf : List Node → List Node
  | [] => []
  | n :: ns => n.leaves ++ leavesOf ns
end

lemma leavesOf_eq (ns : List Node) : leavesOf ns = ns.flatMap leaves := by
  induction ns with
  | nil => rw [leavesOf, List.flatMap_nil]
  | cons n ns ih => rw [leavesOf, ih, List.flatMap_cons]

lemma leaves_branch (l : String) (cs : List Node) : (branch l cs).leaves = cs.flatMap leaves := by
  rw [branch, leaves, leavesOf_eq]

/-- The text of a tree is that of its terminals. -/
theorem text_eq_join_leaves (n : Node) : n.text = String.join (n.leaves.map label) := by
  induction n using induct with
  | step l t cs ih =>
    cases t with
    | true => rw [text_eq_reading, reading, leaves, List.map_singleton, String.join_cons,
        String.join_nil, String.append_empty]
    | false =>
      have hjoin : String.join (cs.map text) = String.join ((cs.flatMap leaves).map label) := by
        induction cs with
        | nil => rfl
        | cons c cs ihs =>
          rw [List.map_cons, String.join_cons, List.flatMap_cons, List.map_append,
            String.join_append, ih c List.mem_cons_self,
            ihs fun c hc => ih c (List.mem_cons_of_mem _ hc)]
      rw [← branch, text_branch, leaves_branch, hjoin]

/-- Two trees have the same root and derive the same terminals. -/
structure SameSample (n n' : Node) : Prop where
  label_eq : n'.label = n.label
  isTerminal_eq : n'.isTerminal = n.isTerminal
  leaves_eq : n'.leaves = n.leaves
  text_eq : n'.text = n.text

lemma sameSample_of_leaves {n n' : Node} (hlabel : n'.label = n.label)
    (hterminal : n'.isTerminal = n.isTerminal) (hleaves : n'.leaves = n.leaves) :
    n.SameSample n' :=
  ⟨hlabel, hterminal, hleaves, by rw [text_eq_join_leaves, text_eq_join_leaves, hleaves]⟩

lemma SameSample.refl (n : Node) : n.SameSample n := ⟨rfl, rfl, rfl, rfl⟩

lemma SameSample.trans {a b c : Node} (h : a.SameSample b) (h' : b.SameSample c) :
    a.SameSample c :=
  ⟨h'.label_eq.trans h.label_eq, h'.isTerminal_eq.trans h.isTerminal_eq,
    h'.leaves_eq.trans h.leaves_eq, h'.text_eq.trans h.text_eq⟩

end Node

namespace Grouping

variable {g : Grouping}

/-- A new node puts brackets around a run and leaves its terminals. -/
theorem leaves_applyNode {n n' : Node} (h : g.applyNode n = some n') : n'.leaves = n.leaves := by
  refine eq_of_applyNode (fun run => ?_) (fun l cs cs' hcs => ?_) h
  · rw [node, Node.leaves_branch]
  · rw [Node.leaves_branch, Node.leaves_branch, hcs]

lemma sameSample_applyNode {n n' : Node} (h : g.applyNode n = some n') : n.SameSample n' := by
  have hleaves := leaves_applyNode h
  obtain ⟨l, t, cs⟩ := n
  cases t with
  | true =>
    rw [applyNode] at h
    exact Option.some.inj h ▸ .refl _
  | false =>
    obtain ⟨inner, settled, -, -, rfl⟩ := applyNode_branch_eq_some.mp h
    exact Node.sameSample_of_leaves rfl rfl hleaves

end Grouping

namespace Forest

/-- As many trees in the same order, each with its root and its terminals. -/
def SameSample (trees out : Forest) : Prop := List.Forall₂ Node.SameSample trees out

lemma SameSample.refl (trees : Forest) : trees.SameSample trees :=
  List.forall₂_same.mpr fun n _ => .refl n

lemma SameSample.trans {a b c : Forest} (h : a.SameSample b) (h' : b.SameSample c) :
    a.SameSample c := by
  induction h generalizing c with
  | nil => exact h'
  | cons hn _ ih =>
    obtain ⟨n, ns, hn', hns, rfl⟩ := List.forall₂_cons_left_iff.mp h'
    exact .cons (hn.trans hn') (ih hns)

variable {trees out : Forest}

lemma sameSample_apply {g : Grouping} (h : trees.apply g = .ok out) : trees.SameSample out :=
  (Grouping.applyNodes_eq_some_iff.mp (apply_eq_ok_iff.mp h).2).imp fun _ _ hn =>
    Grouping.sameSample_applyNode hn

end Forest
end GrammarInduction
