import GrammarInduction.Candidate.Basic
import GrammarInduction.Proofs.Forest.Nodes
import GrammarInduction.Proofs.Forest.Taken

/-!
The application of a grouping with a new name as one pass through each child list. No run of the
pattern is left at any node that was there before, and the new nodes are those that stand for a
run.
-/
namespace GrammarInduction
namespace Grouping

open Node

mutual
/-- A tree after one pass through each child list, where children come before their parents. -/
def sweepTree (g : Grouping) : Node → Node
  | ⟨l, true, cs⟩ => ⟨l, true, cs⟩
  | ⟨l, false, cs⟩ => ⟨l, false, g.sweep (g.sweepTrees cs)⟩
def sweepTrees (g : Grouping) : List Node → List Node
  | [] => []
  | n :: ns => g.sweepTree n :: g.sweepTrees ns
end

variable {g : Grouping}

lemma sweepTrees_eq_map (ns : List Node) : g.sweepTrees ns = ns.map g.sweepTree := by
  induction ns with
  | nil => rw [sweepTrees, List.map_nil]
  | cons n ns ih => rw [sweepTrees, ih, List.map_cons]

lemma sweepTree_terminal (l : String) (cs : List Node) :
    g.sweepTree ⟨l, true, cs⟩ = ⟨l, true, cs⟩ := by rw [sweepTree]

lemma sweepTree_branch (l : String) (cs : List Node) :
    g.sweepTree (.branch l cs) = .branch l (g.sweep (cs.map g.sweepTree)) := by
  rw [branch, sweepTree, sweepTrees_eq_map]
  rfl

@[simp] lemma label_sweepTree (n : Node) : (g.sweepTree n).label = n.label := by
  obtain ⟨l, t, cs⟩ := n
  cases t <;> rw [sweepTree]

/-- The children of a nonterminal are changed first, then one pass goes through them. -/
theorem sweepTree_of_nonterminal {n : Node} (h : n.isTerminal = false) :
    g.sweepTree n = .branch n.label (g.sweep (n.children.map g.sweepTree)) := by
  obtain ⟨l, t, cs⟩ := n
  obtain rfl : t = false := h
  exact sweepTree_branch l cs

/-- The nodes that are reached from trees, if they are known from each of them. -/
theorem filter_reachedOf_map_sweepTree {ns : List Node}
    (h : ∀ n ∈ ns, ((g.sweepTree n).reached.filter fun m => m.label ≠ g.id) =
      n.reached.map g.sweepTree) :
    ((reachedOf (ns.map g.sweepTree)).filter fun m => m.label ≠ g.id) =
      (reachedOf ns).map g.sweepTree := by
  induction ns with
  | nil => simp
  | cons n ns ih =>
    obtain ⟨hn, hns⟩ := List.forall_mem_cons.mp h
    rw [List.map_cons, reachedOf_cons, List.filter_append, hn, ih hns, reachedOf_cons,
      List.map_append]

section

variable (hne : g.pattern ≠ [])

include hne in
/-- What holds of all nodes of a list and passes to the nodes over its runs holds after a pass. -/
theorem forall_mem_sweep {Q : Node → Prop} {ns : List Node} (hns : ∀ n ∈ ns, Q n)
    (hnode : ∀ run, run.map Node.label = g.pattern → (∀ n ∈ run, Q n) → Q (g.node run)) :
    ∀ n ∈ g.sweep ns, Q n := by
  rw [sweep]
  induction ns using pass_induct Node.label hne with
  | nil => simp
  | take run rest hrun ih =>
    rw [List.forall_mem_append] at hns
    rw [pass_take hne rest hrun]
    exact List.forall_mem_cons.mpr ⟨hnode run hrun hns.1, ih hns.2⟩
  | skip n ns hno ih =>
    rw [List.forall_mem_cons] at hns
    rw [pass_skip hno]
    exact List.forall_mem_cons.mpr ⟨hns.1, ih hns.2⟩

include hne in
/-- A pass keeps all nodes that are reached, and adds only nodes with the new name. -/
theorem filter_reachedOf_sweep (ns : List Node) :
    ((reachedOf (g.sweep ns)).filter fun n => n.label ≠ g.id) =
      (reachedOf ns).filter fun n => n.label ≠ g.id := by
  rw [sweep]
  induction ns using pass_induct Node.label hne with
  | nil => rw [pass_nil]
  | take run rest hrun ih =>
    rw [pass_take hne rest hrun, reachedOf_cons, node, reached_branch, reachedOf_append,
      List.cons_append, List.filter_cons_of_neg (by simp), List.filter_append, ih,
      List.filter_append]
  | skip n ns hno ih =>
    rw [pass_skip hno, reachedOf_cons, List.filter_append, ih, reachedOf_cons, List.filter_append]

variable (hid : g.id ∉ g.pattern)

include hne hid

/-- A grouping with a name of its own takes one pass through each child list. -/
theorem applyNode_eq_sweepTree (n : Node) : g.applyNode n = some (g.sweepTree n) := by
  induction n using Node.induct with
  | step l t cs ih =>
    cases t with
    | true => rw [applyNode, sweepTree]
    | false =>
      have hinner : g.applyNodes cs = some (cs.map g.sweepTree) := by
        rw [applyNodes_eq_some_iff, List.forall₂_map_right_iff, List.forall₂_same]
        exact ih
      exact applyNode_branch_eq_some.mpr
        ⟨_, _, hinner, settle_eq_sweep hne hid _, sweepTree_branch l cs⟩

lemma apply_eq_map_sweepTree (trees : Forest) : trees.apply g = .ok (trees.map g.sweepTree) := by
  refine Forest.apply_eq_ok_iff.mpr ⟨hne, applyNodes_eq_some_iff.mpr ?_⟩
  rw [List.forall₂_map_right_iff, List.forall₂_same]
  exact fun n _ => applyNode_eq_sweepTree hne hid n

/-- No nonterminal that was there before keeps a run of the pattern. -/
theorem not_infix_children_sweepTree {n : Node} (h : n.isTerminal = false) :
    ¬g.pattern <:+: Forest.labels (g.sweepTree n).children := by
  rw [sweepTree_of_nonterminal h, children_branch, Forest.labels, map_label_sweep hne]
  exact not_infix_sweepLabels hne hid

omit hid in
/-- Where the name is new, the nodes that are reached are those of before after their passes, in
their order, with new nodes in between. -/
theorem filter_reached_sweepTree {n : Node} (h : ∀ m ∈ n.nodes, m.label ≠ g.id) :
    ((g.sweepTree n).reached.filter fun m => m.label ≠ g.id) = n.reached.map g.sweepTree := by
  induction n using Node.induct with
  | step l t cs ih =>
    have hl : l ≠ g.id := h _ (self_mem_nodes _)
    cases t with
    | true => simp [sweepTree_terminal, reached, hl]
    | false =>
      have hcs := filter_reachedOf_map_sweepTree fun c hc =>
        ih c hc fun m hm => h m (mem_nodes_of_mem_child hc hm)
      change (((g.sweepTree (.branch l cs)).reached).filter _) = (branch l cs).reached.map _
      rw [sweepTree_branch, reached_branch, List.filter_cons_of_pos (by exact decide_eq_true hl),
        filter_reachedOf_sweep hne, hcs, reached_branch, List.map_cons, sweepTree_branch]

omit hid in
/-- Where the name is new, a node has it if it stands for a run of the pattern. -/
theorem children_of_mem_nodes_sweepTree {n : Node} (h : ∀ m ∈ n.nodes, m.label ≠ g.id) {m : Node}
    (hm : m ∈ (g.sweepTree n).nodes) (hlabel : m.label = g.id) :
    m.isTerminal = false ∧ Forest.labels m.children = g.pattern := by
  induction n using Node.induct generalizing m with
  | step l t cs ih =>
    cases t with
    | true =>
      rw [sweepTree_terminal] at hm
      exact absurd hlabel (h m hm)
    | false =>
      change m ∈ (g.sweepTree (.branch l cs)).nodes at hm
      rw [sweepTree_branch, mem_nodes_iff] at hm
      rcases hm with rfl | hm
      · exact absurd hlabel (h ⟨l, false, cs⟩ (self_mem_nodes _))
      · obtain ⟨c, hc, hmc⟩ := mem_nodesOf_iff.mp hm
        -- The property passes from the nodes of a run to the node over it.
        refine forall_mem_sweep hne (Q := fun c => ∀ m ∈ c.nodes, m.label = g.id →
          m.isTerminal = false ∧ Forest.labels m.children = g.pattern) ?_ ?_ c hc m hmc hlabel
        · intro d hd m hm hlabel
          obtain ⟨c, hc, rfl⟩ := List.mem_map.mp hd
          exact ih c hc (fun k hk => h k (mem_nodes_of_mem_child hc hk)) hm hlabel
        · intro run hrun hall m hm hlabel
          rcases mem_nodes_iff.mp hm with rfl | hm
          · exact ⟨rfl, hrun⟩
          · obtain ⟨c, hc, hmc⟩ := mem_nodesOf_iff.mp hm
            exact hall c hc m hmc hlabel

end

/-- A grouping whose name is new to its pattern and to a forest goes through each child list once,
from left to right, and collapses the pattern wherever it begins. Afterwards the nodes that are
reached are those of before, each after its pass and in their order, with new nodes in between. No
nonterminal of before has a run of the pattern among its children, and whatever has the new name is
a nonterminal over such a run. -/
theorem one_pass_collapses_all {trees : Forest} {g : Grouping} (hne : g.pattern ≠ [])
    (hid : g.id ∉ g.pattern) (hnew : ∀ n ∈ nodesOf trees, n.label ≠ g.id) :
    trees.apply g = .ok (trees.map g.sweepTree) ∧
      ((reachedOf (trees.map g.sweepTree)).filter fun n => n.label ≠ g.id) =
        (reachedOf trees).map g.sweepTree ∧
      (∀ n ∈ reachedOf trees, n.isTerminal = false →
        g.sweepTree n = .branch n.label (g.sweep (n.children.map g.sweepTree)) ∧
          ¬g.pattern <:+: Forest.labels (g.sweepTree n).children) ∧
      ∀ n ∈ nodesOf (trees.map g.sweepTree), n.label = g.id →
        n.isTerminal = false ∧ Forest.labels n.children = g.pattern := by
  have hnodes : ∀ tree ∈ trees, ∀ n ∈ tree.nodes, n.label ≠ g.id := fun tree ht n hn =>
    hnew n (mem_nodesOf_iff.mpr ⟨tree, ht, hn⟩)
  refine ⟨apply_eq_map_sweepTree hne hid trees, ?_, ?_, ?_⟩
  · exact filter_reachedOf_map_sweepTree fun tree ht => filter_reached_sweepTree hne (hnodes tree ht)
  · intro n _ hnt
    exact ⟨sweepTree_of_nonterminal hnt, not_infix_children_sweepTree hne hid hnt⟩
  · intro n hn hlabel
    obtain ⟨tree', htree', hn⟩ := mem_nodesOf_iff.mp hn
    obtain ⟨tree, ht, rfl⟩ := List.mem_map.mp htree'
    exact children_of_mem_nodes_sweepTree hne (hnodes tree ht) hn hlabel

def selfOverlap : Grouping := ⟨["a", "b", "a"], "n"⟩

/-- A tree with overlapping runs of it at two depths, and with one below a terminal. -/
def overlapForest : Forest :=
  [.branch "START"
    [.branch "a" (["a", "b", "a", "b", "a"].map .terminal), .terminal "b", .branch "a" [],
      ⟨"b", true, ["a", "b", "a"].map .terminal⟩, .terminal "a"]]

theorem one_pass_collapses_all_overlapForest :
    selfOverlap.pattern ≠ [] ∧ selfOverlap.id ∉ selfOverlap.pattern ∧
      (∀ n ∈ nodesOf overlapForest, n.label ≠ selfOverlap.id) ∧
      overlapForest.apply selfOverlap = .ok (overlapForest.map selfOverlap.sweepTree) ∧
      (∀ n ∈ reachedOf overlapForest, n.isTerminal = false →
        ¬selfOverlap.pattern <:+: Forest.labels (selfOverlap.sweepTree n).children) ∧
      ∀ n ∈ nodesOf (overlapForest.map selfOverlap.sweepTree), n.label = selfOverlap.id →
        Forest.labels n.children = selfOverlap.pattern := by
  have hne : selfOverlap.pattern ≠ [] := by decide
  have hid : selfOverlap.id ∉ selfOverlap.pattern := by decide
  have hnew : ∀ n ∈ nodesOf overlapForest, n.label ≠ selfOverlap.id := by decide
  obtain ⟨happly, -, hold, hnodes⟩ := one_pass_collapses_all hne hid hnew
  exact ⟨hne, hid, hnew, happly, fun n hn hnt => (hold n hn hnt).2,
    fun n hn hlabel => (hnodes n hn hlabel).2⟩

end Grouping
end GrammarInduction
