import GrammarInduction.Proofs.Forest.OnePass

/-!
The application of a grouping can be undone. Where the new name was not there before, every node
that has it gives way to its children, and what is left are the trees of before; so an application
adds these nodes and no others.
-/
namespace GrammarInduction
namespace Node

mutual
/-- What a tree leaves when every node with a label gives way to its children, from below. -/
def dissolve (id : String) : Node → List Node
  | ⟨l, t, cs⟩ => if l = id then dissolveAll id cs else [⟨l, t, dissolveAll id cs⟩]
def dissolveAll (id : String) : List Node → List Node
  | [] => []
  | n :: ns => n.dissolve id ++ dissolveAll id ns
end

lemma dissolveAll_eq_flatMap (id : String) (ns : List Node) :
    dissolveAll id ns = ns.flatMap (dissolve id) := by
  induction ns with
  | nil => rw [dissolveAll, List.flatMap_nil]
  | cons n ns ih => rw [dissolveAll, ih, List.flatMap_cons]

lemma dissolve_branch (id l : String) (cs : List Node) :
    (branch l cs).dissolve id =
      if l = id then cs.flatMap (dissolve id) else [branch l (cs.flatMap (dissolve id))] := by
  rw [branch, dissolve, dissolveAll_eq_flatMap]
  rfl

/-- A tree without the label is left as it is. -/
theorem dissolve_of_forall_ne {id : String} {n : Node} (h : ∀ m ∈ n.nodes, m.label ≠ id) :
    n.dissolve id = [n] := by
  induction n using induct with
  | step l t cs ih =>
    have hcs : cs.flatMap (dissolve id) = cs := by
      rw [List.flatMap_congr fun c hc => ih c hc fun m hm => h m (mem_nodes_of_mem_child hc hm)]
      exact List.flatMap_singleton' cs
    rw [dissolve, if_neg (h _ (self_mem_nodes _)), dissolveAll_eq_flatMap, hcs]

def labelsBut (id : String) (n : Node) : List String :=
  (n.nodes.map label).filter fun l => l ≠ id

lemma labelsBut_branch (id l : String) (cs : List Node) :
    (branch l cs).labelsBut id =
      (if l = id then [] else [l]) ++ cs.flatMap (labelsBut id) := by
  rw [labelsBut, nodes_branch, nodesOf_eq_flatMap, List.map_cons, label_branch, List.map_flatMap,
    List.filter_cons, List.filter_flatMap]
  by_cases h : l = id
  · rw [if_neg (by simp [h]), if_pos h, List.nil_append]
    rfl
  · rw [if_pos (by simp [h]), if_neg h, List.singleton_append]
    rfl

lemma labelsBut_of_forall_ne {id : String} {n : Node} (h : ∀ m ∈ n.nodes, m.label ≠ id) :
    n.labelsBut id = n.nodes.map label := by
  refine List.filter_eq_self.mpr fun l hl => ?_
  obtain ⟨m, hm, rfl⟩ := List.mem_map.mp hl
  exact decide_eq_true (h m hm)

/-- Every node has the label or is counted by its own. -/
theorem count_eq_countP_add_labelsBut (id : String) (n : Node) :
    n.count = (n.nodes.countP fun m => m.label = id) + (n.labelsBut id).length := by
  rw [labelsBut, count_eq_length_nodes, ← List.countP_eq_length_filter, List.countP_map,
    List.length_eq_countP_add_countP fun m : Node => decide (m.label = id)]
  congr 1
  exact List.countP_congr fun m _ => by simp

end Node

namespace Grouping

open Node

variable {g : Grouping} {n n' : Node}

/-- An application only adds nodes that dissolve. -/
theorem dissolve_applyNode (h : g.applyNode n = some n') :
    n'.dissolve g.id = n.dissolve g.id := by
  refine eq_of_applyNode (fun run => ?_) (fun l cs cs' hcs => ?_) h
  · rw [node, dissolve_branch, if_pos rfl]
  · rw [dissolve_branch, dissolve_branch, hcs]

lemma labelsBut_applyNode (h : g.applyNode n = some n') :
    n'.labelsBut g.id = n.labelsBut g.id := by
  refine eq_of_applyNode (fun run => ?_) (fun l cs cs' hcs => ?_) h
  · rw [node, labelsBut_branch, if_pos rfl, List.nil_append]
  · rw [labelsBut_branch, labelsBut_branch, hcs]

/-- Where the name is new, a tree grows by the nodes that have it. -/
theorem count_applyNode (hnew : ∀ m ∈ n.nodes, m.label ≠ g.id) (h : g.applyNode n = some n') :
    n'.count = n.count + n'.nodes.countP fun m => m.label = g.id := by
  rw [count_eq_countP_add_labelsBut g.id n', labelsBut_applyNode h, labelsBut_of_forall_ne hnew,
    List.length_map, ← count_eq_length_nodes, Nat.add_comm]

lemma dissolveAll_applyNodes {ns out : List Node} (hnew : ∀ m ∈ nodesOf ns, m.label ≠ g.id)
    (h : List.Forall₂ (fun n n' => g.applyNode n = some n') ns out) :
    dissolveAll g.id out = ns := by
  induction h with
  | nil => rw [dissolveAll]
  | @cons n n' ns out hn _ ih =>
    rw [nodesOf, List.forall_mem_append] at hnew
    rw [dissolveAll, dissolve_applyNode hn, dissolve_of_forall_ne hnew.1, ih hnew.2]
    rfl

/-- The application of a grouping whose name is new to its pattern and to a forest can be undone:
when each node with the new name gives way to its children, the forest is the one of before, and
every tree has grown by the number of these nodes. -/
theorem application_undone {trees : Forest} (hne : g.pattern ≠ []) (hid : g.id ∉ g.pattern)
    (hnew : ∀ n ∈ nodesOf trees, n.label ≠ g.id) :
    ∃ out, trees.apply g = .ok out ∧ dissolveAll g.id out = trees ∧
      List.Forall₂ (fun n n' => n'.count = n.count + n'.nodes.countP fun m => m.label = g.id)
        trees out := by
  have happly := apply_eq_map_sweepTree hne hid trees
  have hall := applyNodes_eq_some_iff.mp (Forest.apply_eq_ok_iff.mp happly).2
  refine ⟨_, happly, dissolveAll_applyNodes hnew hall, ?_⟩
  rw [List.forall₂_iff_get] at hall ⊢
  refine ⟨hall.1, fun i hi hi' => count_applyNode (fun m hm => ?_) (hall.2 i hi hi')⟩
  exact hnew m (mem_nodesOf_iff.mpr ⟨_, List.getElem_mem hi, hm⟩)

/-- The forest with overlapping runs after the application: a new node stands below another. -/
def overlapGrouped : Forest :=
  [.branch "START"
    [.branch "n"
      [.branch "a" [.branch "n" (["a", "b", "a"].map .terminal), .terminal "b", .terminal "a"],
        .terminal "b", .branch "a" []],
      ⟨"b", true, ["a", "b", "a"].map .terminal⟩, .terminal "a"]]

theorem application_undone_overlapForest :
    selfOverlap.pattern ≠ [] ∧ selfOverlap.id ∉ selfOverlap.pattern ∧
      (∀ n ∈ nodesOf overlapForest, n.label ≠ selfOverlap.id) ∧
      overlapForest.apply selfOverlap = .ok overlapGrouped ∧
      dissolveAll selfOverlap.id overlapGrouped = overlapForest ∧
      List.Forall₂ (fun n n' => n'.count = n.count + n'.nodes.countP fun m =>
        m.label = selfOverlap.id) overlapForest overlapGrouped ∧
      (nodesOf overlapGrouped).countP (fun m => m.label = selfOverlap.id) = 2 := by
  have hne : selfOverlap.pattern ≠ [] := by decide
  have hid : selfOverlap.id ∉ selfOverlap.pattern := by decide
  have hnew : ∀ n ∈ nodesOf overlapForest, n.label ≠ selfOverlap.id := by decide
  have hgrouped : overlapForest.apply selfOverlap = .ok overlapGrouped := by rfl
  obtain ⟨out, happly, hundone, hcount⟩ := application_undone hne hid hnew
  obtain rfl : overlapGrouped = out := Except.ok.inj (hgrouped.symm.trans happly)
  exact ⟨hne, hid, hnew, happly, hundone, hcount, by decide⟩

end Grouping
end GrammarInduction
