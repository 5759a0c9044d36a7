import Mathlib.Data.Finset.Card
import Mathlib.Data.List.Nodup
import GrammarInduction.Proofs.Forest.Seeding
import GrammarInduction.Proofs.Forest.Segments

/-!
What first forests keep of their examples, and whom they give names. Each distinct token has one
class, whose name depends on what tokens there are and not on where they stand; each opening bracket
has one segment. These get different names, and no name is given to anything else.
-/
namespace GrammarInduction

open Node NameSupply

variable {names : NameSupply} {tokens others : List String} {examples : List (List String)}

lemma nodup_eraseDups : (tokens : List String) → tokens.eraseDups.Nodup
  | [] => List.nodup_nil
  | token :: rest => by
    rw [List.eraseDups_cons, List.nodup_cons, List.mem_eraseDups]
    exact ⟨by simp, nodup_eraseDups _⟩
termination_by tokens => tokens.length
decreasing_by exact Nat.lt_succ_of_le (List.length_filter_le _ _)

lemma pairwise_distinctTokens (tokens : List String) :
    (distinctTokens tokens).Pairwise (· ≤ ·) := by
  refine (List.pairwise_mergeSort (fun a b c => ?_) (fun a b => ?_) _).imp of_decide_eq_true
  · simpa using String.le_trans
  · simpa using String.le_total a b

lemma nodup_distinctTokens (tokens : List String) : (distinctTokens tokens).Nodup :=
  (List.mergeSort_perm _ _).nodup_iff.mpr (nodup_eraseDups tokens)

/-- The distinct tokens in order are the only list without repetitions of just these tokens that is
in order. -/
theorem distinctTokens_eq {sorted : List String} (htokens : tokens ⊆ sorted)
    (hsorted : sorted ⊆ tokens) (hnodup : sorted.Nodup) (horder : sorted.Pairwise (· ≤ ·)) :
    distinctTokens tokens = sorted := by
  have hperm : (distinctTokens tokens).Perm sorted :=
    (List.perm_ext_iff_of_nodup (nodup_distinctTokens _) hnodup).mpr fun token =>
      mem_distinctTokens.trans ⟨fun h => htokens h, fun h => hsorted h⟩
  exact hperm.eq_of_pairwise (fun _ _ _ _ => String.le_antisymm) (pairwise_distinctTokens _) horder

/-- They depend on what tokens there are and on nothing else. -/
theorem distinctTokens_congr (h : ∀ token, token ∈ tokens ↔ token ∈ others) :
    distinctTokens tokens = distinctTokens others :=
  distinctTokens_eq (fun token ht => mem_distinctTokens.mpr ((h token).mp ht))
    (fun token ht => (h token).mpr (mem_distinctTokens.mp ht)) (nodup_distinctTokens others)
    (pairwise_distinctTokens others)

lemma length_distinctTokens (tokens : List String) :
    (distinctTokens tokens).length = tokens.toFinset.card := by
  rw [← List.toFinset_card_of_nodup (nodup_distinctTokens tokens)]
  congr 1
  ext token
  rw [List.mem_toFinset, List.mem_toFinset, mem_distinctTokens]

lemma map_fst_nameTokens (names : NameSupply) (tokens : List String) :
    (nameTokens names tokens).1.map Prod.fst = tokens := by
  induction tokens generalizing names with
  | nil => rfl
  | cons token rest ih => exact congrArg (token :: ·) (ih _)

lemma mem_of_lookup {classes : List (String × String)} {token name : String}
    (h : classes.lookup token = some name) : (token, name) ∈ classes := by
  obtain ⟨before, after, rfl, -⟩ := List.lookup_eq_some_iff.mp h
  exact List.mem_append_cons_self

/-- Distinct names make the classes of distinct tokens distinct. -/
theorem eq_of_lookup_eq {classes : List (String × String)} (h : (classes.map Prod.snd).Nodup)
    {token other name : String} (ht : classes.lookup token = some name)
    (ho : classes.lookup other = some name) : token = other :=
  congrArg Prod.fst (List.inj_on_of_nodup_map h (mem_of_lookup ht) (mem_of_lookup ho) rfl)

namespace Node

lemma segmentLabelsOf_eq_flatMap (ns : List Node) :
    segmentLabelsOf ns = ns.flatMap segmentLabels := by
  induction ns with
  | nil => rw [segmentLabelsOf, List.flatMap_nil]
  | cons n ns ih => rw [segmentLabelsOf, ih, List.flatMap_cons]

/-- The labels of all segments below a list of nodes, whatever their order. -/
theorem perm_segmentLabelsOf (ns : List Node) :
    ((nodesOf ns).filter isSegment |>.map label).Perm (segmentLabelsOf ns) := by
  have hnode : ∀ n : Node, ((n.nodes.filter isSegment).map label).Perm n.segmentLabels := by
    intro n
    induction n using induct with
    | step l t cs ih =>
      have hchildren : ((nodesOf cs).filter isSegment |>.map label).Perm (segmentLabelsOf cs) := by
        rw [nodesOf_eq_flatMap, List.filter_flatMap, List.map_flatMap, segmentLabelsOf_eq_flatMap]
        exact .flatMap_left cs ih
      rw [nodes, segmentLabels, List.filter_cons]
      split
      · exact (hchildren.cons l).trans (List.perm_append_singleton l _).symm
      · rw [List.append_nil]
        exact hchildren
  rw [nodesOf_eq_flatMap, List.filter_flatMap, List.map_flatMap, segmentLabelsOf_eq_flatMap]
  exact .flatMap_left ns fun n _ => hnode n

end Node

def Forest.inner (trees : Forest) : List Node := trees.flatMap fun n => nodesOf n.children

lemma Forest.mem_inner_iff {trees : Forest} {n : Node} :
    n ∈ trees.inner ↔ ∃ tree ∈ trees, n ∈ nodesOf tree.children := List.mem_flatMap

lemma Forest.perm_segmentLabels (trees : Forest) :
    (trees.inner.filter isSegment |>.map label).Perm trees.segmentLabels := by
  rw [inner, List.filter_flatMap, List.map_flatMap]
  exact .flatMap_left trees fun n _ => perm_segmentLabelsOf n.children

lemma lookup_seedClasses {token : String} (h : token ∈ examples.flatten) :
    (seedClasses names examples).lookup token =
      some (classNode (seedClasses names examples) token).label := by
  have hsome : ((seedClasses names examples).lookup token).isSome = true := by
    rw [List.lookup_isSome_iff]
    have hmem : token ∈ (seedClasses names examples).map Prod.fst := by
      rw [seedClasses, map_fst_nameTokens]
      exact mem_distinctTokens.mpr h
    obtain ⟨e, he, rfl⟩ := List.mem_map.mp hmem
    exact ⟨e, he, by simp⟩
  obtain ⟨name, hname⟩ := Option.isSome_iff_exists.mp hsome
  rw [classNode, hname]
  rfl

/-- Below the roots there are terminals of tokens, their class nodes, and segments. -/
theorem mem_inner_seedForest {n : Node} (h : n ∈ (seedForest names examples).1.inner) :
    (∃ token ∈ examples.flatten,
      n = .terminal token ∨ n = classNode (seedClasses names examples) token) ∨
      n.isSegment = true := by
  obtain ⟨tree, htree, hn⟩ := Forest.mem_inner_iff.mp h
  obtain ⟨k, htree⟩ := List.getElem?_of_mem htree
  rw [seedForest, getElem?_seedTrees, Option.map_eq_some_iff] at htree
  obtain ⟨tokens, htokens, rfl⟩ := htree
  obtain ⟨c, hc, hn⟩ := mem_nodesOf_iff.mp hn
  rcases (seeded_seedTree _ tokens c hc).mem_nodes hn with ⟨token, ht, hn⟩ | hs
  · have hleaf := List.mem_flatMap.mpr ⟨c, hc, ht⟩
    rw [leaves_children_seedTree] at hleaf
    obtain ⟨other, ho, heq⟩ := List.mem_map.mp hleaf
    obtain rfl : other = token := congrArg label heq
    exact .inl ⟨other, List.mem_flatten_of_mem (List.mem_of_getElem? htokens) ho, hn⟩
  · exact .inr hs

/-- A class node below the roots is the one of its token. -/
theorem eq_classNode_of_isClassOf {n : Node} {token : String}
    (hn : n ∈ (seedForest names examples).1.inner) (h : n.IsClassOf token) :
    token ∈ examples.flatten ∧ n = classNode (seedClasses names examples) token := by
  rcases mem_inner_seedForest hn with ⟨other, ho, rfl | rfl⟩ | hs
  · cases h.1
  · obtain rfl : other = token := congrArg label (List.singleton_inj.mp h.2)
    exact ⟨ho, rfl⟩
  · simp [isSegment, h.2] at hs

/-- Examples have as many segments as opening brackets. -/
theorem length_segmentLabels_seedTrees (classes : List (String × String)) (names : NameSupply)
    (examples : List (List String)) :
    (seedTrees classes names examples).1.segmentLabels.length =
      examples.flatten.countP opensSegment := by
  induction examples generalizing names with
  | nil => rfl
  | cons tokens rest ih =>
    rw [seedTrees, Forest.segmentLabels, List.flatMap_cons, List.length_append,
      length_segmentLabels_seedTree, List.flatten_cons, List.countP_append]
    exact congrArg _ (ih _)

lemma length_seedNames (names : NameSupply) (examples : List (List String)) :
    (seedNames names examples).length =
      examples.flatten.toFinset.card + examples.flatten.countP opensSegment := by
  have hclasses := congrArg List.length (map_fst_nameTokens names (distinctTokens examples.flatten))
  rw [List.length_map, length_distinctTokens] at hclasses
  rw [seedNames, List.length_append, List.length_map, hclasses, seedForest,
    length_segmentLabels_seedTrees]

/-- A root over an example: its terminals are the tokens. -/
structure Node.IsRootOf (tokens : List String) (n : Node) : Prop where
  label_eq : n.label = rootLabel
  nonterminal : n.isTerminal = false
  leaves_eq : n.leaves = tokens.map .terminal
  children : ∀ c ∈ n.children, c.isTerminal = false

/-- A forest holds its examples, one tree for each. Below the roots there are the classes of their
tokens, which hold all terminals, and segments. -/
structure Forest.Holds (examples : List (List String)) (trees : Forest) : Prop where
  roots : List.Forall₂ Node.IsRootOf examples trees
  terminals : ∀ n ∈ trees.inner, ∀ c ∈ n.children, c.isTerminal = true → n.IsClassOf c.label
  kinds : ∀ n ∈ trees.inner, n.isTerminal = false →
    (∃ token ∈ examples.flatten, n.IsClassOf token) ∨ n.isSegment = true

/-- Different tokens and different segments have different names, equal tokens the same one. -/
structure Forest.NamedApart (trees : Forest) : Prop where
  classes : ∀ m ∈ trees.inner, ∀ n ∈ trees.inner, ∀ token other, m.IsClassOf token →
    n.IsClassOf other → (m.label = n.label ↔ token = other)
  segments : (trees.inner.filter isSegment |>.map label).Nodup
  apart : ∀ m ∈ trees.inner, ∀ n ∈ trees.inner, ∀ token, m.IsClassOf token → n.isSegment = true →
    m.label ≠ n.label

lemma holds_seedForest (names : NameSupply) (examples : List (List String)) :
    (seedForest names examples).1.Holds examples where
  roots := forall₂_seedTrees (fun names tokens =>
    { label_eq := rfl
      nonterminal := rfl
      leaves_eq := (leaves_branch _ _).trans (leaves_children_seedTree _ names tokens)
      children := fun c hc => (seeded_seedTree names tokens c hc).nonterminal }) _ examples
  terminals n hn c hc ht := by
    rcases mem_inner_seedForest hn with ⟨token, -, rfl | rfl⟩ | hs
    · cases hc
    · obtain rfl := List.mem_singleton.mp hc
      exact isClassOf_classNode _ token
    · rw [(isSegment_iff.mp hs).2 c hc] at ht
      cases ht
  kinds n hn ht := by
    rcases mem_inner_seedForest hn with ⟨token, hmem, rfl | rfl⟩ | hs
    · cases ht
    · exact .inl ⟨token, hmem, isClassOf_classNode _ token⟩
    · exact .inr hs

lemma namedApart_seedForest (hnodup : (seedNames names examples).Nodup) :
    (seedForest names examples).1.NamedApart := by
  obtain ⟨hclasses, hsegments, happart⟩ := List.nodup_append.mp hnodup
  have hperm := (seedForest names examples).1.perm_segmentLabels
  refine ⟨fun m hm n hn token other ht ho => ?_, hperm.nodup_iff.mpr hsegments,
    fun m hm n hn token ht hs => ?_⟩
  · obtain ⟨htoken, rfl⟩ := eq_classNode_of_isClassOf hm ht
    obtain ⟨hother, rfl⟩ := eq_classNode_of_isClassOf hn ho
    constructor
    · intro hlabel
      exact eq_of_lookup_eq hclasses (lookup_seedClasses htoken)
        (hlabel ▸ lookup_seedClasses hother)
    · rintro rfl
      rfl
  · obtain ⟨htoken, rfl⟩ := eq_classNode_of_isClassOf hm ht
    refine happart _ ?_ _ ?_
    · exact List.mem_map_of_mem (mem_of_lookup (lookup_seedClasses htoken))
    · exact hperm.mem_iff.mp (List.mem_map_of_mem (List.mem_filter.mpr ⟨hn, hs⟩))

/-- First forests keep their examples and give names to what they need. Every example has its tree,
with its tokens as terminals in order. Each distinct token and each opening bracket takes one name,
and these are different. The name of a token is the same for all examples with the same tokens,
whatever their order and repetitions. -/
theorem first_forest_allots (h : (seedForest names examples).2.next < wordMax) :
    (seedForest names examples).1.Holds examples ∧
    (seedForest names examples).1.NamedApart ∧
    (seedForest names examples).2 = { names with
      next := names.next +
        (examples.flatten.toFinset.card + examples.flatten.countP opensSegment) } ∧
    ∀ others : List (List String), others.flatten.toFinset = examples.flatten.toFinset →
      ∀ m ∈ (seedForest names examples).1.inner, ∀ n ∈ (seedForest names others).1.inner,
        ∀ token, m.IsClassOf token → n.IsClassOf token → m.label = n.label := by
  have hout := handsOut_seedForest names examples
  have hstart : names.next ≤ wordMax :=
    ((leadsTo_seedForest names examples).lt_of_lt h).le
  have hlength := length_seedNames names examples
  have hnext : (seedForest names examples).2.next =
      names.next + (seedNames names examples).length := by
    have := hout.next_eq hstart
    omega
  have hnodup := (hout.nodup_iff hstart).mpr (by omega)
  refine ⟨holds_seedForest names examples, namedApart_seedForest hnodup, ?_,
    fun others hothers m hm n hn token htm htn => ?_⟩
  · rw [← hlength, ← hnext, ← hout.stem_eq]
  · have hsame : seedClasses names others = seedClasses names examples := by
      rw [seedClasses, seedClasses, distinctTokens_congr fun token => ?_]
      rw [← List.mem_toFinset, hothers, List.mem_toFinset]
    rw [(eq_classNode_of_isClassOf hm htm).2, (eq_classNode_of_isClassOf hn htn).2, hsame]

/-- Two examples with brackets that open or close nothing. -/
def looseBrackets : List (List String) := [["b", "(", "a", "b"], [")", "[", "(", "]"]]

/-- The same tokens in other places, two of them once more. -/
def movedBrackets : List (List String) := [["(", ")", "]", "b", "a"], [], ["a", "[", "["]]

/-- Their first forest: the segments that stay open end with their examples. -/
def looseForest : Forest :=
  [.branch "START" [.branch "t10" [.terminal "b"],
      .branch "t11" [.branch "t5" [.terminal "("], .branch "t9" [.terminal "a"],
        .branch "t10" [.terminal "b"]]],
    .branch "START" [.branch "t6" [.terminal ")"],
      .branch "t13" [.branch "t7" [.terminal "["],
        .branch "t12" [.branch "t5" [.terminal "("], .branch "t8" [.terminal "]"]]]]]

lemma seedForest_looseBrackets :
    seedForest ⟨"t", 5⟩ looseBrackets = (looseForest, ⟨"t", 14⟩) := by
  have hdistinct : distinctTokens looseBrackets.flatten = ["(", ")", "[", "]", "a", "b"] :=
    distinctTokens_eq (by decide) (by decide) (by decide) (by decide)
  rw [seedForest, hdistinct]
  rfl

/-- Six tokens and three opening brackets take nine names. -/
theorem first_forest_allots_looseBrackets :
    seedForest ⟨"t", 5⟩ looseBrackets = (looseForest, ⟨"t", 14⟩) ∧
    14 < wordMax ∧ looseForest.Holds looseBrackets ∧ looseForest.NamedApart ∧
    movedBrackets.flatten.toFinset = looseBrackets.flatten.toFinset ∧
    ∀ m ∈ looseForest.inner, ∀ n ∈ (seedForest ⟨"t", 5⟩ movedBrackets).1.inner,
      ∀ token, m.IsClassOf token → n.IsClassOf token → m.label = n.label := by
  have hlt : (seedForest ⟨"t", 5⟩ looseBrackets).2.next < wordMax := by
    rw [seedForest_looseBrackets]
    decide
  have hsame : movedBrackets.flatten.toFinset = looseBrackets.flatten.toFinset := by decide
  obtain ⟨hholds, hapart, -, hclass⟩ := first_forest_allots hlt
  rw [seedForest_looseBrackets] at hholds hapart hclass
  exact ⟨seedForest_looseBrackets, by decide, hholds, hapart, hsame, hclass movedBrackets hsame⟩

end GrammarInduction
