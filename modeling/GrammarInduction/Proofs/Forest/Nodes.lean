import Mathlib.Tactic.Lemma
import GrammarInduction.Forest.Node

/-!
The nodes of trees as lists, parents before their children and children from left to right: all of
them, or only those that are reached through nonterminals, which leaves out what terminals hold.
-/
namespace GrammarInduction
namespace Node

mutual
def nodes : Node → List Node
  | ⟨l, t, cs⟩ => ⟨l, t, cs⟩ :: nodesOf cs
def nodesOf : List Node → List Node
  | [] => []
  | n :: ns => n.nodes ++ nodesOf ns
end

mutual
/-- The nodes of a tree that are reached through nonterminals. -/
def reached : Node → List Node
  | ⟨l, true, cs⟩ => [⟨l, true, cs⟩]
  | ⟨l, false, cs⟩ => ⟨l, false, cs⟩ :: reachedOf cs
def reachedOf : List Node → List Node
  | [] => []
  | n :: ns => n.reached ++ reachedOf ns
end

lemma nodesOf_eq_flatMap (ns : List Node) : nodesOf ns = ns.flatMap nodes := by
  induction ns with
  | nil => rw [nodesOf, List.flatMap_nil]
  | cons n ns ih => rw [nodesOf, ih, List.flatMap_cons]

lemma reachedOf_eq_flatMap (ns : List Node) : reachedOf ns = ns.flatMap reached := by
  induction ns with
  | nil => rw [reachedOf, List.flatMap_nil]
  | cons n ns ih => rw [reachedOf, ih, List.flatMap_cons]

@[simp] lemma reachedOf_nil : reachedOf [] = [] := by rw [reachedOf]

@[simp] lemma reachedOf_cons (n : Node) (ns : List Node) :
    reachedOf (n :: ns) = n.reached ++ reachedOf ns := by rw [reachedOf]

@[simp] lemma reachedOf_append (as bs : List Node) :
    reachedOf (as ++ bs) = reachedOf as ++ reachedOf bs := by
  simp only [reachedOf_eq_flatMap, List.flatMap_append]

lemma mem_nodesOf_iff {m : Node} {ns : List Node} : m ∈ nodesOf ns ↔ ∃ n ∈ ns, m ∈ n.nodes := by
  rw [nodesOf_eq_flatMap, List.mem_flatMap]

lemma mem_reachedOf_iff {m : Node} {ns : List Node} :
    m ∈ reachedOf ns ↔ ∃ n ∈ ns, m ∈ n.reached := by
  rw [reachedOf_eq_flatMap, List.mem_flatMap]

/-- A node of a tree is its root or stands below a child. -/
theorem mem_nodes_iff {m n : Node} : m ∈ n.nodes ↔ m = n ∨ m ∈ nodesOf n.children := by
  obtain ⟨l, t, cs⟩ := n
  rw [nodes, List.mem_cons]

lemma self_mem_nodes (n : Node) : n ∈ n.nodes := mem_nodes_iff.mpr (.inl rfl)

lemma mem_nodes_of_mem_child {l : String} {t : Bool} {cs : List Node} {c m : Node} (hc : c ∈ cs)
    (hm : m ∈ c.nodes) : m ∈ (Node.mk l t cs).nodes :=
  mem_nodes_iff.mpr (.inr (mem_nodesOf_iff.mpr ⟨c, hc, hm⟩))

lemma mem_nodes_of_mem_children {c m n : Node} (hm : m ∈ n.nodes) (hc : c ∈ m.children) :
    c ∈ n.nodes := by
  induction n using Node.induct with
  | step l t cs ih =>
    rcases mem_nodes_iff.mp hm with rfl | hm
    · exact mem_nodes_of_mem_child hc (self_mem_nodes c)
    · obtain ⟨d, hd, hm⟩ := mem_nodesOf_iff.mp hm
      exact mem_nodes_of_mem_child hd (ih d hd hm)

@[simp] lemma reached_branch (l : String) (cs : List Node) :
    (branch l cs).reached = branch l cs :: reachedOf cs := by rw [branch, reached]

lemma mem_nodes_of_mem_reached {m n : Node} (h : m ∈ n.reached) : m ∈ n.nodes := by
  induction n using Node.induct with
  | step l t cs ih =>
    cases t with
    | true =>
      rw [reached, List.mem_singleton] at h
      exact h ▸ self_mem_nodes _
    | false =>
      change m ∈ (branch l cs).reached at h
      rw [reached_branch, List.mem_cons] at h
      rcases h with rfl | h
      · exact self_mem_nodes _
      · obtain ⟨c, hc, hm⟩ := mem_reachedOf_iff.mp h
        exact mem_nodes_of_mem_child hc (ih c hc hm)

lemma nodes_branch (l : String) (cs : List Node) :
    (branch l cs).nodes = branch l cs :: nodesOf cs := by rw [branch, nodes]

@[simp] lemma sizes_reverse (ns : List Node) : sizes ns.reverse = sizes ns := by
  induction ns with
  | nil => rfl
  | cons n ns ih =>
    rw [List.reverse_cons, sizes_append, ih, sizes_cons, sizes_cons, sizes_nil]
    omega

lemma length_nodes (n : Node) : n.nodes.length = n.size := by
  induction n using induct with
  | step l t cs ih =>
    rw [nodes, List.length_cons, size, Nat.add_comm]
    congr 1
    induction cs with
    | nil => rw [nodesOf, sizes_nil, List.length_nil]
    | cons c cs ihs =>
      rw [nodesOf, List.length_append, sizes_cons, ih c List.mem_cons_self,
        ihs fun d hd => ih d (List.mem_cons_of_mem _ hd)]

end Node

/-- The worklist counts every node once, whatever their order on it. -/
theorem Forest.countOnto_eq (seen : Nat) (work : Forest) :
    countOnto seen work = seen + Node.sizes work := by
  induction seen, work using countOnto.induct with
  | case1 seen => rw [countOnto, Node.sizes_nil, Nat.add_zero]
  | case2 seen n rest ih =>
    rw [List.unattach_reverse, List.unattach_attach, Node.sizes_append, Node.sizes_reverse] at ih
    rw [countOnto, ih, Node.sizes_cons, Node.size_eq n]
    omega

namespace Node

lemma count_eq_size (n : Node) : n.count = n.size := by
  rw [count, Forest.countOnto_eq, sizes_cons, sizes_nil, Nat.zero_add, Nat.add_zero]

lemma count_eq_length_nodes (n : Node) : n.count = n.nodes.length := by
  rw [count_eq_size, length_nodes]

end Node
end GrammarInduction
