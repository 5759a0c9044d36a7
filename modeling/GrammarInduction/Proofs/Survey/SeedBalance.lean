import GrammarInduction.Proofs.Forest.Allotment
import GrammarInduction.Proofs.Forest.BalancedRuns
import GrammarInduction.Proofs.Survey.Shapes
import GrammarInduction.Proofs.Survey.Statistics

/-!
Unbalanced runs in surveys of first forests. A survey counts each run that it looks at and judges
unbalanced. In the tree of an example whose brackets are nested and match in kind, these are the
runs that have one of the brackets of their segment and not the other one.
-/
namespace GrammarInduction

open Node Balance

/-- A run with what stands before and after it is the whole list. -/
theorem Run.append_elements (r : Run) (cs : List Node) :
    cs = cs.take r.start ++ r.elements cs ++ cs.drop r.stop := by
  rw [elements, stop, List.append_assoc, ← List.drop_drop, List.take_append_drop,
    List.take_append_drop]

namespace Survey

/-- Every run that was looked at and judged unbalanced is counted once. -/
theorem unbalanced_enterAll (settings : Settings) (p : Progress) (visits : List Visit) :
    (visits.foldl (Progress.enter settings) p).tally.unbalanced = p.tally.unbalanced +
      (considered settings visits).countP fun f => (f.1.verdict f.2).isUnbalanced :=
  congrArg Tally.unbalanced (Progress.tally_enterAll settings p visits)

end Survey

namespace Visit

/-- A run is judged unbalanced if it derives unbalanced text and is no lone terminal. -/
theorem isUnbalanced_verdict {v : Visit} {r : Run}
    (hlone : ∀ n ∈ v.elements r, n.isTerminal = false) :
    (v.verdict r).isUnbalanced = !isBalanced (String.join ((v.elements r).map text)) := by
  have hany : (v.elements r).any isTerminal = false := by simpa using hlone
  rw [verdict, hany, Bool.and_false]
  dsimp only
  cases hbalanced : isBalanced (String.join ((v.elements r).map text)) <;> rfl

end Visit

/-- At a segment a run has its first child and not its last one, or the other way round. -/
def Visit.HasOneEnd (v : Visit) (r : Run) : Prop :=
  v.site.path ≠ [] ∧ v.node.isSegment = true ∧ ¬(r.start = 0 ↔ r.stop = v.size)

variable {classes : List (String × String)} {w : List String}

/-- At a segment with its brackets the runs that are judged unbalanced have one of these only. -/
theorem isUnbalanced_segment {v : Visit} {r : Run} {l o c : String} {ns : List Node}
    (hp : IsMatchingPair o c) (hns : Nests IsPlainToken IsMatchingPair classes w ns)
    (hnode : v.node = .branch l (classNode classes o :: ns ++ [classNode classes c]))
    (hlen : 0 < r.len) (hfits : r.stop ≤ v.size) :
    (v.verdict r).isUnbalanced = true ↔ ¬(r.start = 0 ↔ r.stop = v.size) := by
  have hchildren : v.node.children = classNode classes o :: ns ++ [classNode classes c] := by
    rw [hnode, children_branch]
  have hsegment := isSegment_iff.mp (hnode ▸ hns.isSegment_branch l o c)
  have hsize : 0 < v.size ∧ r.start ≤ v.size := by
    rw [Run.stop] at hfits
    omega
  have hne : r.elements v.node.children ≠ [] := by
    rw [← List.length_pos_iff, Run.length_elements hfits]
    exact hlen
  have hbalanced := isBalanced_run_iff hp hns.matched
    (hchildren.symm.trans (r.append_elements _)) hne
  have hbefore : v.node.children.take r.start = [] ↔ r.start = 0 := by
    rw [← List.length_eq_zero_iff, List.length_take, ← Visit.size]
    omega
  have hafter : v.node.children.drop r.stop = [] ↔ r.stop = v.size := by
    rw [← List.length_eq_zero_iff, List.length_drop, ← Visit.size]
    omega
  rw [Visit.isUnbalanced_verdict fun n hn => hsegment.2 n (Run.mem_of_mem_elements hn),
    Bool.not_eq_true', ← Bool.not_eq_true, ← hbefore, ← hafter]
  exact not_congr hbalanced

/-- In the tree of nested brackets the runs that are judged unbalanced have one of the brackets of a
segment only. -/
theorem isUnbalanced_iff {root : Node} {v : Visit} {r : Run}
    (hroot : Nests IsPlainToken IsMatchingPair classes w root.children)
    (hnode : root.descend? v.site.path = some v.node) (hlen : 0 < r.len) (hfits : r.stop ≤ v.size) :
    (v.verdict r).isUnbalanced = true ↔ v.HasOneEnd r := by
  rw [Visit.HasOneEnd]
  cases hpath : v.site.path with
  | nil =>
    rw [hpath, descend?_nil] at hnode
    obtain rfl := Option.some.inj hnode
    have hbalanced := isBalanced_of_matched (matched_join fun n (hn : n ∈ v.elements r) =>
      hroot.matched n (Run.mem_of_mem_elements hn))
    rw [Visit.isUnbalanced_verdict fun n hn => hroot.nonterminal n (Run.mem_of_mem_elements hn),
      hbalanced]
    simp
  | cons i path =>
    rw [hpath] at hnode
    obtain ⟨c, hc, -, hd⟩ := descend?_cons_eq_some_iff.mp hnode
    have hmem : v.node ∈ nodesOf root.children :=
      mem_nodesOf_iff.mpr ⟨c, List.mem_of_getElem? hc, mem_nodes_of_descend? hd⟩
    rcases hroot.mem_nodesOf hmem with ⟨t, ht | ht⟩ | ⟨l, o, c, v', ns, hp, hns, hsegment⟩
    · -- A terminal has no children, and the only child of a class node is looked at alone.
      rw [Visit.size, ht, children_terminal, List.length_nil, Run.stop] at hfits
      omega
    · obtain ⟨start, len⟩ := r
      have hchildren : v.node.children = [.terminal t] := by
        rw [ht]
        rfl
      rw [Visit.size, hchildren, List.length_singleton, Run.stop] at hfits
      dsimp only at hlen hfits
      obtain rfl : start = 0 := by omega
      obtain rfl : len = 1 := by omega
      have hlone : v.verdict ⟨0, 1⟩ = .loneTerminal := by
        rw [Visit.verdict, Visit.elements, hchildren]
        rfl
      rw [hlone, ht, isSegment_classNode]
      simp [Verdict.isUnbalanced]
    · have hs : v.node.isSegment = true := hsegment ▸ hns.isSegment_branch l o c
      rw [isUnbalanced_segment hp hns hsegment hlen hfits, hs]
      simp

/-- The brackets of an example are nested and match in kind, and no other token has a bracket or a
quotation mark. -/
def IsWellNested (tokens : List String) : Prop := Segmented IsPlainToken IsMatchingPair tokens

/-- Nesting agrees with balance. In the tree of a well nested example the runs of children of the
root are balanced, and a run of children of a segment is balanced if it has both or neither of the
first and last one, which are the classes of its brackets. So of the runs of the tree a survey
counts as unbalanced those that have one of the brackets of a segment only. -/
theorem nesting_agrees_with_balance {examples : List (List String)} {k : Nat}
    {tokens : List String} (names : NameSupply) (hexample : examples[k]? = some tokens)
    (hnested : IsWellNested tokens) :
    ∃ root, (seedForest names examples).1[k]? = some root ∧
      (∀ before run after, root.children = before ++ run ++ after →
        isBalanced (String.join (run.map text)) = true) ∧
      (∀ n ∈ nodesOf root.children, n.isSegment = true → ∃ o c first inner last,
        IsMatchingPair o c ∧ n.children = first :: inner ++ [last] ∧ first.IsClassOf o ∧
        last.IsClassOf c ∧ ∀ before run after, n.children = before ++ run ++ after → run ≠ [] →
          (isBalanced (String.join (run.map text)) = true ↔ (before = [] ↔ after = []))) ∧
      ∀ settings tables, settings.Valid →
        Survey.WithinWords settings (seedForest names examples).1 → ∃ survey tables',
          Survey.ofForest settings (seedForest names examples).1 tables = (.ok survey, tables') ∧
          survey.tally.unbalanced = (Survey.considered settings
            (seedForest names examples).1.visits).countP (fun f => (f.1.verdict f.2).isUnbalanced) ∧
          (Survey.considered settings (seedForest names examples).1.visits).Nodup ∧
          (∀ v r, (v, r) ∈ Survey.considered settings (seedForest names examples).1.visits ↔
            v ∈ (seedForest names examples).1.visits ∧ settings.Admits r.len ∧ r.stop ≤ v.size) ∧
          ∀ v r, (v, r) ∈ Survey.considered settings (seedForest names examples).1.visits →
            v.site.tree = k → ((v.verdict r).isUnbalanced = true ↔ v.HasOneEnd r) := by
  obtain ⟨names', hroot⟩ := exists_seedTree names hexample
  have hnests : Nests IsPlainToken IsMatchingPair (seedClasses names examples) tokens
      (seedTree (seedClasses names examples) names' tokens).1.children :=
    nests_seedTree (fun _ => IsPlainToken.isOrdinary) (fun _ _ => IsMatchingPair.isPair) hnested
      names'
  refine ⟨_, hroot, fun before run after heq => ?_, fun n hn hs => ?_,
    fun settings tables hvalid hwords => ?_⟩
  · refine isBalanced_of_matched (matched_join fun n hn => hnests.matched n ?_)
    exact heq ▸ List.mem_append_left _ (List.mem_append_right _ hn)
  · rcases hnests.mem_nodesOf hn with ⟨t, rfl | rfl⟩ | ⟨l, o, c, v, ns, hp, hns, rfl⟩
    · cases hs
    · cases hs
    · exact ⟨o, c, _, ns, _, hp, rfl, isClassOf_classNode _ o, isClassOf_classNode _ c,
        fun before run after heq => isBalanced_run_iff hp hns.matched heq⟩
  · have hok := Survey.ofForest_of_withinWords tables hvalid hwords
    refine ⟨_, _, hok, ?_, Survey.nodup_considered hwords,
      fun v r => Survey.mem_considered_iff hvalid hwords, fun v r hf hk => ?_⟩
    · exact (Survey.unbalanced_enterAll settings { tables } _).trans (Nat.zero_add _)
    · obtain ⟨hv, ha, hfits⟩ := (Survey.mem_considered_iff hvalid hwords).mp hf
      obtain ⟨root, hget, hnode⟩ :=
        Forest.descend?_eq_some_iff.mp (Forest.descend?_of_mem_visits hv)
      rw [hk, hroot] at hget
      obtain rfl := Option.some.inj hget
      exact isUnbalanced_iff hnests hnode (hvalid.pos_of_admits ha) hfits

/-- An example with a quotation mark and a bracket that opens nothing, and a well nested one. -/
def quotedAndNested : List (List String) := [[")", "'"], ["a", "(", "b", "[", "]", ")", "c"]]

def roundSegment : Node :=
  .branch "t9" [.branch "t1" [.terminal "("], .branch "t6" [.terminal "b"],
    .branch "t8" [.branch "t3" [.terminal "["], .branch "t4" [.terminal "]"]],
    .branch "t2" [.terminal ")"]]

def quotedAndNestedForest : Forest :=
  [.branch "START" [.branch "t2" [.terminal ")"], .branch "t0" [.terminal "'"]],
    .branch "START" [.branch "t5" [.terminal "a"], roundSegment, .branch "t7" [.terminal "c"]]]

lemma seedForest_quotedAndNested :
    seedForest {} quotedAndNested = (quotedAndNestedForest, ⟨"t", 10⟩) := by
  have hdistinct : distinctTokens quotedAndNested.flatten =
      ["'", "(", ")", "[", "]", "a", "b", "c"] :=
    distinctTokens_eq (by decide) (by decide) (by decide) (by decide)
  rw [seedForest, hdistinct]
  rfl

lemma isWellNested_quotedAndNested : IsWellNested ["a", "(", "b", "[", "]", ")", "c"] := by
  have hround : IsMatchingPair "(" ")" := ⟨('(', ')'), by decide, rfl, rfl⟩
  have hsquare : IsMatchingPair "[" "]" := ⟨('[', ']'), by decide, rfl, rfl⟩
  have hinner : Segmented IsPlainToken IsMatchingPair ["b", "[", "]"] :=
    .token (by decide) (.segment hsquare .nil .nil)
  exact .token (by decide) (.segment hround hinner (.token (by decide) .nil))

/-- The run from the outer segment on is balanced, its first two children are not. A survey counts
ten unbalanced runs: two of the first example, and eight that have one bracket of a segment only. -/
theorem nesting_agrees_with_balance_quotedAndNested :
    seedForest {} quotedAndNested = (quotedAndNestedForest, ⟨"t", 10⟩) ∧
    IsWellNested ["a", "(", "b", "[", "]", ")", "c"] ∧ ({} : Settings).Valid ∧
    Survey.WithinWords {} quotedAndNestedForest ∧
    isBalanced (String.join ([roundSegment, .branch "t7" [.terminal "c"]].map text)) = true ∧
    isBalanced (String.join ((roundSegment.children.take 2).map text)) = false ∧
    ∃ survey tables, Survey.ofForest {} quotedAndNestedForest {} = (.ok survey, tables) ∧
      survey.tally.unbalanced = 10 ∧
      ∀ v r, (v, r) ∈ Survey.considered {} quotedAndNestedForest.visits → v.site.tree = 1 →
        ((v.verdict r).isUnbalanced = true ↔ v.HasOneEnd r) := by
  have hvalid : ({} : Settings).Valid := by decide
  have hwords : Survey.WithinWords {} quotedAndNestedForest :=
    Survey.withinWords_of_le (by decide +kernel)
  have hnested := isWellNested_quotedAndNested
  have hexample : quotedAndNested[1]? = some ["a", "(", "b", "[", "]", ")", "c"] := rfl
  obtain ⟨root, hroot, hroots, hsegments, hsurvey⟩ :=
    nesting_agrees_with_balance {} hexample hnested
  rw [seedForest_quotedAndNested] at hroot hsurvey
  obtain rfl : root = .branch "START" [.branch "t5" [.terminal "a"], roundSegment,
    .branch "t7" [.terminal "c"]] := (Option.some.inj hroot).symm
  obtain ⟨o, c, first, inner, last, -, -, -, -, hruns⟩ :=
    hsegments roundSegment (by simp [nodesOf, nodes, branch, roundSegment]) rfl
  have hopened := (hruns [] (roundSegment.children.take 2) (roundSegment.children.drop 2) rfl
    (by decide)).not.mpr (by decide)
  obtain ⟨survey, tables, hok, htally, -, -, hcounted⟩ := hsurvey {} {} hvalid hwords
  exact ⟨seedForest_quotedAndNested, hnested, hvalid, hwords,
    hroots [.branch "t5" [.terminal "a"]] _ [] rfl, Bool.eq_false_iff.mpr hopened, survey, tables,
    hok, htally.trans (by decide +kernel), hcounted⟩

end GrammarInduction
