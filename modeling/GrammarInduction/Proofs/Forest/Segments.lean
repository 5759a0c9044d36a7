import Mathlib.Data.List.Basic
import GrammarInduction.Proofs.Forest.Nodes
import GrammarInduction.Proofs.Forest.Offsets
import GrammarInduction.Proofs.Forest.SeedNames

/-!
The segments of first forests. A tree comes from the class nodes of its tokens by putting runs of
them under new nodes. Each such node begins with the class node of an opening bracket, and each
opening bracket begins one, so segments are as many as opening brackets and stand where these do.
-/
namespace GrammarInduction

open Node NameSupply

variable {classes : List (String × String)} {ns : List Node}

/-- A nonterminal over a terminal of this token and nothing else. -/
def Node.IsClassOf (n : Node) (token : String) : Prop :=
  n.isTerminal = false ∧ n.children = [.terminal token]

lemma isClassOf_classNode (classes : List (String × String)) (token : String) :
    (classNode classes token).IsClassOf token := ⟨rfl, rfl⟩

lemma Node.isSegment_iff {n : Node} :
    n.isSegment = true ↔ n.isTerminal = false ∧ ∀ c ∈ n.children, c.isTerminal = false := by
  simp [isSegment]

@[simp] lemma leaves_terminal (token : String) :
    (terminal token).leaves = [.terminal token] := by rw [terminal, leaves]

@[simp] lemma leaves_classNode (classes : List (String × String)) (token : String) :
    (classNode classes token).leaves = [.terminal token] := by
  rw [classNode, leaves_branch, List.flatMap_singleton, leaves_terminal]

@[simp] lemma isSegment_terminal (token : String) : (terminal token).isSegment = false := rfl

@[simp] lemma isSegment_classNode (classes : List (String × String)) (token : String) :
    (classNode classes token).isSegment = false := rfl

lemma mem_nodes_classNode {m : Node} {token : String} :
    m ∈ (classNode classes token).nodes ↔ m = .terminal token ∨ m = classNode classes token := by
  simp [classNode, nodes_branch, terminal, nodesOf, nodes, or_comm]

lemma offsets_classNode (start : Nat) (classes : List (String × String)) (token : String) :
    (classNode classes token).offsets start =
      [(start, classNode classes token), (start, .terminal token)] := by
  simp [classNode, offsets_branch, offsetsOf_cons, offsets_terminal]

lemma leaves_classNodes (classes : List (String × String)) (tokens : List String) :
    (tokens.map (classNode classes)).flatMap leaves = tokens.map .terminal := by
  induction tokens with
  | nil => rfl
  | cons token rest ih => simp [ih]

/-- The numbers of terminals before the segments of trees. -/
def Node.segmentOffsets (start : Nat) (ns : List Node) : List Nat :=
  ((offsetsOf start ns).filter fun p => p.2.isSegment).map Prod.fst

@[simp] lemma segmentOffsets_nil (start : Nat) : segmentOffsets start [] = [] := by
  simp [segmentOffsets]

lemma segmentOffsets_cons (start : Nat) (n : Node) (ns : List Node) :
    segmentOffsets start (n :: ns) =
      segmentOffsets start [n] ++ segmentOffsets (start + n.leaves.length) ns := by
  simp [segmentOffsets, offsetsOf_cons]

lemma segmentOffsets_classNode (start : Nat) (classes : List (String × String))
    (token : String) : segmentOffsets start [classNode classes token] = [] := by
  simp [segmentOffsets, offsetsOf_cons, offsets_classNode]

lemma segmentOffsets_branch {start : Nat} {l : String} {cs : List Node}
    (h : (branch l cs).isSegment = true) :
    segmentOffsets start [branch l cs] = start :: segmentOffsets start cs := by
  simp [segmentOffsets, offsetsOf_cons, offsets_branch, h]

/-- Nodes whose segments begin where opening brackets stand keep this side by side. -/
theorem segmentOffsets_of_forall (h : ∀ n ∈ ns, ∀ start,
      segmentOffsets start [n] = (n.leaves.map label).findIdxs opensSegment start) (start : Nat) :
    segmentOffsets start ns =
      ((ns.flatMap leaves).map label).findIdxs opensSegment start := by
  induction ns generalizing start with
  | nil => simp
  | cons n ns ih =>
    obtain ⟨hn, hns⟩ := List.forall_mem_cons.mp h
    rw [segmentOffsets_cons, hn, ih hns, List.flatMap_cons, List.map_append,
      List.findIdxs_append, List.length_map, Nat.add_comm]

/-- The same for the number of segments. -/
theorem length_segmentLabelsOf_of_forall (h : ∀ n ∈ ns,
      n.segmentLabels.length = (n.leaves.map label).countP opensSegment) :
    (segmentLabelsOf ns).length = ((ns.flatMap leaves).map label).countP opensSegment := by
  induction ns with
  | nil => simp
  | cons n ns ih =>
    obtain ⟨hn, hns⟩ := List.forall_mem_cons.mp h
    rw [segmentLabelsOf_cons, List.length_append, hn, ih hns, List.flatMap_cons, List.map_append,
      List.countP_append]

/-- A node that reading makes: the class node of a token that opens no segment, or a segment, whose
first child is the class node of the bracket that opens it. -/
inductive Node.Seeded (classes : List (String × String)) : Node → Prop
  | token {token : String} (ht : opensSegment token = false) :
      Node.Seeded classes (classNode classes token)
  | segment {l o : String} {cs : List Node} (ho : opensSegment o = true)
      (hcs : ∀ c ∈ cs, Node.Seeded classes c) :
      Node.Seeded classes (.branch l (classNode classes o :: cs))

namespace Node.Seeded

variable {n : Node}

lemma nonterminal (h : n.Seeded classes) : n.isTerminal = false := by cases h <;> rfl

lemma isSegment_branch {l o : String} {cs : List Node}
    (hcs : ∀ c ∈ cs, Node.Seeded classes c) :
    (branch l (classNode classes o :: cs)).isSegment = true :=
  isSegment_iff.mpr ⟨rfl, List.forall_mem_cons.mpr ⟨rfl, fun c hc => (hcs c hc).nonterminal⟩⟩

/-- In a tree there are only terminals of its leaves, their class nodes, and segments. -/
theorem mem_nodes (h : n.Seeded classes) {m : Node} (hm : m ∈ n.nodes) :
    (∃ token, .terminal token ∈ n.leaves ∧ (m = .terminal token ∨ m = classNode classes token)) ∨
      m.isSegment = true := by
  induction h with
  | @token token ht => exact .inl ⟨token, by simp, mem_nodes_classNode.mp hm⟩
  | @segment l o cs ho hcs ih =>
    rw [leaves_branch]
    rcases mem_nodes_iff.mp hm with rfl | hm
    · exact .inr (isSegment_branch hcs)
    · obtain ⟨c, hc, hm⟩ := mem_nodesOf_iff.mp hm
      rcases List.mem_cons.mp hc with rfl | hcs
      · exact .inl ⟨o, by simp, mem_nodes_classNode.mp hm⟩
      · refine (ih c hcs hm).imp_left fun ⟨other, ht, hm⟩ => ⟨other, ?_, hm⟩
        exact List.mem_flatMap.mpr ⟨c, hc, ht⟩

/-- Segments begin exactly where their opening brackets stand. -/
theorem segmentOffsets_eq (h : n.Seeded classes) (start : Nat) :
    segmentOffsets start [n] = (n.leaves.map label).findIdxs opensSegment start := by
  induction h generalizing start with
  | token ht => simp [segmentOffsets_classNode, ht]
  | @segment l o cs ho hcs ih =>
    rw [segmentOffsets_branch (isSegment_branch hcs), segmentOffsets_cons,
      segmentOffsets_classNode, segmentOffsets_of_forall ih, leaves_branch]
    simp [ho]

/-- There are as many segments as opening brackets. -/
theorem length_segmentLabels (h : n.Seeded classes) :
    n.segmentLabels.length = (n.leaves.map label).countP opensSegment := by
  induction h with
  | token ht => simp [ht]
  | @segment l o cs ho hcs ih =>
    have hchildren : ∀ c ∈ classNode classes o :: cs, c.isTerminal = false :=
      List.forall_mem_cons.mpr ⟨rfl, fun c hc => (hcs c hc).nonterminal⟩
    rw [segmentLabels_branch hchildren, segmentLabelsOf_cons, segmentLabels_classNode,
      List.nil_append, List.length_append, length_segmentLabelsOf_of_forall ih, leaves_branch]
    simp [ho]

end Node.Seeded

/-- The lists around an open segment, the innermost one first: that of an open segment begins with
its opening bracket, and the outermost one is that of the example. -/
inductive SeededStack (classes : List (String × String)) : List Node → List (List Node) → Prop
  | base {ns : List Node} (hns : ∀ n ∈ ns, n.Seeded classes) : SeededStack classes ns []
  | within {o : String} {ns parent : List Node} {outer : List (List Node)}
      (ho : opensSegment o = true) (hns : ∀ n ∈ ns, n.Seeded classes)
      (houter : SeededStack classes parent outer) :
      SeededStack classes (classNode classes o :: ns) (parent :: outer)

namespace SeededStack

variable {current parent : List Node} {outer : List (List Node)}

lemma add (h : SeededStack classes current outer) {n : Node} (hn : n.Seeded classes) :
    SeededStack classes (current ++ [n]) outer := by
  cases h with
  | base hns => exact .base (List.forall_mem_append.mpr ⟨hns, List.forall_mem_singleton.mpr hn⟩)
  | within ho hns houter =>
    exact .within ho (List.forall_mem_append.mpr ⟨hns, List.forall_mem_singleton.mpr hn⟩) houter

lemma begin (h : SeededStack classes current outer) {o : String}
    (ho : opensSegment o = true) : SeededStack classes [classNode classes o] (current :: outer) :=
  .within ho (fun _ hn => absurd hn List.not_mem_nil) h

/-- The innermost segment becomes a node in the list around it. -/
theorem close (h : SeededStack classes current (parent :: outer)) (l : String) :
    SeededStack classes (parent ++ [.branch l current]) outer := by
  cases h with
  | within ho hns houter => exact houter.add (.segment ho hns)

lemma read {s : OpenSegments} (h : SeededStack classes s.current s.outer) (names : NameSupply)
    (token : String) : SeededStack classes
      (s.read names token (classNode classes token)).1.current
      (s.read names token (classNode classes token)).1.outer := by
  obtain ⟨current, outer⟩ := s
  rw [OpenSegments.read]
  by_cases hopen : opensSegment token = true
  · rw [if_pos hopen]
    exact h.begin hopen
  · have hadd := h.add (.token (Bool.eq_false_iff.mpr hopen))
    rw [if_neg hopen]
    by_cases hclose : closesSegment token = true
    · rw [if_pos hclose]
      cases outer with
      | nil => exact hadd
      | cons parent outer => exact hadd.close _
    · rw [if_neg hclose]
      exact hadd

lemma readTokens {s : OpenSegments} (h : SeededStack classes s.current s.outer)
    (names : NameSupply) (tokens : List String) : SeededStack classes
      (readTokens classes s names tokens).1.current
      (readTokens classes s names tokens).1.outer := by
  induction tokens generalizing s names with
  | nil => exact h
  | cons token rest ih => exact ih (h.read names token) _

lemma finish (h : SeededStack classes current outer) (names : NameSupply) :
    ∀ n ∈ (OpenSegments.finish current names outer).1, n.Seeded classes := by
  induction outer generalizing current names with
  | nil =>
    cases h with
    | base hns => exact hns
  | cons parent outer ih => exact ih (h.close _) _

end SeededStack

namespace OpenSegments

def line (s : OpenSegments) : List Node := s.outer.reverse.flatten ++ s.current

/-- Reading a token adds its class node, and a segment that it closes is put under a new node. -/
theorem groupsTo_read (s : OpenSegments) (names : NameSupply) (token : String) (leaf : Node) :
    GroupsTo (s.line ++ [leaf]) (s.read names token leaf).1.line := by
  obtain ⟨current, outer⟩ := s
  have hadd : (OpenSegments.mk current outer).line ++ [leaf] = ((mk current outer).add leaf).line :=
    List.append_assoc _ _ _
  rw [read]
  by_cases hopen : opensSegment token = true
  · rw [if_pos hopen]
    simpa [line, begin, add] using Relation.ReflTransGen.refl
  · rw [if_neg hopen, hadd]
    by_cases hclose : closesSegment token = true
    · rw [if_pos hclose]
      cases outer with
      | nil => exact .refl
      | cons parent outer =>
        have hgroup := Groups.intro (outer.reverse.flatten ++ parent) (current ++ [leaf]) []
          (names.nameAt names.next)
        exact .single (by simpa [line, add, NameSupply.fresh] using hgroup)
    · rw [if_neg hclose]

lemma groupsTo_finish (current : List Node) (names : NameSupply) (outer : List (List Node)) :
    GroupsTo (OpenSegments.mk current outer).line (finish current names outer).1 := by
  induction outer generalizing current names with
  | nil => exact .refl
  | cons parent outer ih =>
    have hgroup := Groups.intro (outer.reverse.flatten ++ parent) current []
      (names.nameAt names.next)
    exact .head (by simpa [line] using hgroup) (ih _ _)

end OpenSegments

open OpenSegments

lemma readTokens_append (classes : List (String × String)) (s : OpenSegments)
    (names : NameSupply) (a b : List String) :
    readTokens classes s names (a ++ b) =
      readTokens classes (readTokens classes s names a).1 (readTokens classes s names a).2 b := by
  induction a generalizing s names with
  | nil => rfl
  | cons token rest ih => exact ih _ _

lemma groupsTo_readTokens (classes : List (String × String)) (s : OpenSegments)
    (names : NameSupply) (tokens : List String) :
    GroupsTo (s.line ++ tokens.map (classNode classes))
      (readTokens classes s names tokens).1.line := by
  induction tokens generalizing s names with
  | nil =>
    rw [List.map_nil, List.append_nil]
    exact .refl
  | cons token rest ih =>
    rw [List.map_cons, ← List.singleton_append, ← List.append_assoc]
    exact (groupsTo_read s names token _).append_right _ |>.trans (ih _ _)

/-- Nothing that was read is lost. -/
theorem leaves_line_readTokens (classes : List (String × String)) (names : NameSupply)
    (tokens : List String) :
    (readTokens classes {} names tokens).1.line.flatMap leaves = tokens.map .terminal := by
  rw [(groupsTo_readTokens classes {} names tokens).leaves_eq]
  exact leaves_classNodes classes tokens

/-- The children of a root come from what was read of the tokens so far and the class nodes of the
others, by putting runs under new nodes. -/
theorem groupsTo_seedTree (classes : List (String × String)) (names : NameSupply)
    (tokens rest : List String) :
    GroupsTo ((readTokens classes {} names tokens).1.line ++ rest.map (classNode classes))
      (seedTree classes names (tokens ++ rest)).1.children := by
  rw [seedTree, readTokens_append]
  exact (groupsTo_readTokens classes _ _ rest).trans (groupsTo_finish _ _ _)

lemma seeded_seedTree (names : NameSupply) (tokens : List String) :
    ∀ n ∈ (seedTree classes names tokens).1.children, n.Seeded classes := by
  have hstart : SeededStack classes [] [] := .base fun _ hn => absurd hn List.not_mem_nil
  exact (hstart.readTokens (s := {}) names tokens).finish _

/-- The terminals of the tree of an example are its tokens. -/
theorem leaves_children_seedTree (classes : List (String × String)) (names : NameSupply)
    (tokens : List String) :
    (seedTree classes names tokens).1.children.flatMap leaves = tokens.map .terminal := by
  have hgroups := groupsTo_seedTree classes names tokens []
  rw [List.append_nil, List.map_nil, List.append_nil] at hgroups
  rw [hgroups.leaves_eq, leaves_line_readTokens]

/-- The segments of an example begin where its opening brackets stand. -/
theorem segmentOffsets_seedTree (names : NameSupply) (tokens : List String) :
    segmentOffsets 0 (seedTree classes names tokens).1.children =
      tokens.findIdxs opensSegment := by
  rw [segmentOffsets_of_forall fun n hn => (seeded_seedTree names tokens n hn).segmentOffsets_eq,
    leaves_children_seedTree, List.map_map]
  simp [Function.comp_def]

/-- An example has as many segments as opening brackets. -/
theorem length_segmentLabels_seedTree (names : NameSupply) (tokens : List String) :
    (segmentLabelsOf (seedTree classes names tokens).1.children).length =
      tokens.countP opensSegment := by
  rw [length_segmentLabelsOf_of_forall fun n hn =>
      (seeded_seedTree names tokens n hn).length_segmentLabels,
    leaves_children_seedTree, List.map_map]
  simp [Function.comp_def]

/-- A property of the trees of all examples holds of each tree and its example. -/
theorem forall₂_seedTrees {P : List String → Node → Prop}
    (h : ∀ names tokens, P tokens (seedTree classes names tokens).1) (names : NameSupply)
    (examples : List (List String)) :
    List.Forall₂ P examples (seedTrees classes names examples).1 := by
  induction examples generalizing names with
  | nil => exact .nil
  | cons tokens rest ih => exact .cons (h names tokens) (ih _)

/-- The tree of an example is made with the names that those before it have left. -/
theorem getElem?_seedTrees (classes : List (String × String)) (names : NameSupply)
    (examples : List (List String)) (k : Nat) :
    (seedTrees classes names examples).1[k]? = examples[k]?.map fun tokens =>
      (seedTree classes (seedTrees classes names (examples.take k)).2 tokens).1 := by
  induction examples generalizing names k with
  | nil => rfl
  | cons tokens rest ih =>
    cases k with
    | zero => rfl
    | succ k => exact ih _ k

def seedClasses (names : NameSupply) (examples : List (List String)) : List (String × String) :=
  (nameTokens names (distinctTokens examples.flatten)).1

lemma exists_seedTree (names : NameSupply) {examples : List (List String)} {k : Nat}
    {tokens : List String} (h : examples[k]? = some tokens) : ∃ names',
      (seedForest names examples).1[k]? =
        some (seedTree (seedClasses names examples) names' tokens).1 := by
  rw [seedForest, getElem?_seedTrees, h]
  exact ⟨_, rfl⟩

end GrammarInduction
