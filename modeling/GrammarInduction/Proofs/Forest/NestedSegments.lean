import Mathlib.Data.List.Nodup
import GrammarInduction.Proofs.Forest.Nesting
import GrammarInduction.Proofs.Forest.Segments

/-!
Nested segments of examples. Reading a nested list adds its nodes to the innermost open segment and
changes nothing else, whatever stands around it; so each segment becomes one node, whose children
are the class nodes of its brackets and, between them, those of its ordinary tokens and the nodes of
its largest segments.
-/
namespace GrammarInduction

open Node

variable {classes : List (String × String)} {Alone : String → Prop}
  {Together : String → String → Prop} {w u v x s y : List String} {ns : List Node} {o c t : String}

/-- The nodes that a segmented list becomes: class nodes of the tokens that stand alone, and for
each segment a node over the class nodes of its brackets with its inner nodes between them. -/
inductive Nests (Alone : String → Prop) (Together : String → String → Prop)
    (classes : List (String × String)) : List String → List Node → Prop
  | nil : Nests Alone Together classes [] []
  | token {t : String} {w : List String} {ns : List Node} (ht : Alone t)
      (hw : Nests Alone Together classes w ns) :
      Nests Alone Together classes (t :: w) (classNode classes t :: ns)
  | segment {o c l : String} {w v : List String} {ns ms : List Node} (hp : Together o c)
      (hw : Nests Alone Together classes w ns) (hv : Nests Alone Together classes v ms) :
      Nests Alone Together classes (o :: w ++ c :: v)
        (.branch l (classNode classes o :: ns ++ [classNode classes c]) :: ms)

namespace Nests

lemma segmented (h : Nests Alone Together classes w ns) : Segmented Alone Together w := by
  induction h with
  | nil => exact .nil
  | token ht _ ih => exact .token ht ih
  | segment hp _ _ ihw ihv => exact .segment hp ihw ihv

lemma leaves_eq (h : Nests Alone Together classes w ns) :
    ns.flatMap leaves = w.map .terminal := by
  induction h with
  | nil => rfl
  | token _ _ ih => simp [ih]
  | segment _ _ _ ihw ihv => simp [leaves_branch, ihw, ihv]

lemma nonterminal (h : Nests Alone Together classes w ns) : ∀ n ∈ ns, n.isTerminal = false := by
  induction h with
  | nil => exact fun _ hn => absurd hn List.not_mem_nil
  | token _ _ ih => exact List.forall_mem_cons.mpr ⟨rfl, ih⟩
  | segment _ _ _ _ ihv => exact List.forall_mem_cons.mpr ⟨rfl, ihv⟩

/-- A node over brackets and the nodes between them is a segment. -/
theorem isSegment_branch (h : Nests Alone Together classes w ns) (l o c : String) :
    (branch l (classNode classes o :: ns ++ [classNode classes c])).isSegment = true := by
  refine isSegment_iff.mpr ⟨rfl, List.forall_mem_append.mpr ⟨?_, List.forall_mem_singleton.mpr rfl⟩⟩
  exact List.forall_mem_cons.mpr ⟨rfl, h.nonterminal⟩

lemma leaves_branch_eq (h : Nests Alone Together classes w ns) (l o c : String) :
    (branch l (classNode classes o :: ns ++ [classNode classes c])).leaves =
      (o :: w ++ [c]).map .terminal := by
  simp [leaves_branch, h.leaves_eq]

variable (h : Nests IsOrdinary IsPair classes w ns)

include h

/-- Each child is the class node of an ordinary token, or a segment over a segment of the list. -/
theorem child_cases : ∀ n ∈ ns, (∃ t, IsOrdinary t ∧ n.IsClassOf t) ∨
    n.isSegment = true ∧ ∃ s, Bracketed s ∧ n.leaves = s.map .terminal := by
  induction h with
  | nil => exact fun _ hn => absurd hn List.not_mem_nil
  | token ht _ ih =>
    exact List.forall_mem_cons.mpr ⟨.inl ⟨_, ht, isClassOf_classNode classes _⟩, ih⟩
  | @segment o c l w v ns ms hp hw _ _ ihv =>
    refine List.forall_mem_cons.mpr ⟨.inr ⟨hw.isSegment_branch l o c, ?_⟩, ihv⟩
    exact ⟨_, ⟨o, w, c, rfl, hp, hw.segmented.nested⟩, hw.leaves_branch_eq l o c⟩

/-- Each largest segment of the list is one child, which stands where the segment does. -/
theorem exists_child (hs : IsMaximalSegment w x s y) : ∃ before n after,
    ns = before ++ n :: after ∧ before.flatMap leaves = x.map .terminal ∧ n.isSegment = true ∧
      n.leaves = s.map .terminal := by
  induction h generalizing x with
  | nil =>
    have hempty : x ++ s ++ y = [] := hs.eq_append.symm
    exact absurd (by simp_all) hs.bracketed.ne_nil
  | @token t w ns ht hw ih =>
    obtain ⟨x', rfl, hrest⟩ := hs.of_cons ht
    obtain ⟨before, n, after, rfl, hbefore, hn⟩ := ih hrest
    exact ⟨classNode classes t :: before, n, after, rfl, by simp [hbefore], hn⟩
  | @segment o c l w v ns ms hp hw hv ihw ihv =>
    have hfirst : Bracketed (o :: w ++ [c]) := ⟨o, w, c, rfl, hp, hw.segmented.nested⟩
    have hsplit : o :: w ++ c :: v = (o :: w ++ [c]) ++ v := by simp
    rw [hsplit] at hs
    rcases hs.of_append hfirst with ⟨rfl, rfl⟩ | ⟨x', rfl, hrest⟩
    · exact ⟨[], _, ms, rfl, rfl, hw.isSegment_branch l o c, hw.leaves_branch_eq l o c⟩
    · obtain ⟨before, n, after, rfl, hbefore, hn⟩ := ihv hrest
      refine ⟨_ :: before, n, after, rfl, ?_, hn⟩
      rw [List.flatMap_cons, hw.leaves_branch_eq, hbefore, ← List.map_append]

end Nests

namespace OpenSegments

variable (s : OpenSegments) (names : NameSupply) (leaf : Node)

lemma read_open (ho : opensSegment o = true) :
    s.read names o leaf = (⟨[leaf], s.current :: s.outer⟩, names) := by
  rw [read, if_pos ho]
  rfl

lemma read_close (hc : closesSegment c = true) (current parent : List Node)
    (outer : List (List Node)) :
    (OpenSegments.mk current (parent :: outer)).read names c leaf =
      (⟨parent ++ [.branch names.fresh.1 (current ++ [leaf])], outer⟩, names.fresh.2) := by
  rw [read, if_neg (by simp [opensSegment_of_closesSegment hc]), if_pos hc]

lemma read_ordinary (ht : IsOrdinary t) : s.read names t leaf = (s.add leaf, names) := by
  rw [read, if_neg (by simp [ht.1]), if_neg (by simp [ht.2])]

end OpenSegments

open OpenSegments

lemma readTokens_cons (classes : List (String × String)) (s : OpenSegments) (names : NameSupply)
    (token : String) (rest : List String) :
    readTokens classes s names (token :: rest) =
      readTokens classes (s.read names token (classNode classes token)).1
        (s.read names token (classNode classes token)).2 rest := rfl

/-- A segment whose inside adds nodes adds one node with the class nodes of its brackets around
them. -/
theorem readTokens_segment {names names' : NameSupply} {s : OpenSegments} (hp : IsPair o c)
    (hread : readTokens classes ⟨[classNode classes o], s.current :: s.outer⟩ names w =
      (⟨[classNode classes o] ++ ns, s.current :: s.outer⟩, names')) :
    readTokens classes s names (o :: w ++ [c]) =
      (s.add (.branch names'.fresh.1 (classNode classes o :: ns ++ [classNode classes c])),
        names'.fresh.2) := by
  rw [List.cons_append, readTokens_cons, s.read_open names _ hp.1, readTokens_append, hread,
    readTokens_cons, read_close _ _ hp.2]
  rfl

/-- Reading a segmented list adds its nodes to the innermost open segment. -/
theorem readTokens_segmented (hAlone : ∀ t, Alone t → IsOrdinary t)
    (hTogether : ∀ o c, Together o c → IsPair o c) (h : Segmented Alone Together w)
    (s : OpenSegments) (names : NameSupply) : ∃ ns names', Nests Alone Together classes w ns ∧
      readTokens classes s names w = (⟨s.current ++ ns, s.outer⟩, names') := by
  induction h generalizing s names with
  | nil => exact ⟨[], names, .nil, by simp [readTokens]⟩
  | @token t w ht _ ih =>
    obtain ⟨ns, names', hns, hread⟩ := ih (s.add (classNode classes t)) names
    refine ⟨classNode classes t :: ns, names', .token ht hns, ?_⟩
    rw [readTokens_cons, s.read_ordinary names _ (hAlone t ht), hread]
    simp [add]
  | @segment o c w v hp _ _ ihw ihv =>
    obtain ⟨ns, names', hns, hw⟩ := ihw ⟨[classNode classes o], s.current :: s.outer⟩ names
    have hsegment := readTokens_segment (hTogether o c hp) hw
    obtain ⟨ms, names'', hms, hv⟩ := ihv (s.add (.branch names'.fresh.1
      (classNode classes o :: ns ++ [classNode classes c]))) names'.fresh.2
    refine ⟨_, names'', .segment (l := names'.fresh.1) hp hns hms, ?_⟩
    rw [show o :: w ++ c :: v = (o :: w ++ [c]) ++ v by simp, readTokens_append, hsegment, hv]
    simp [add]

/-- A segmented example has its nodes below the root. -/
theorem nests_seedTree (hAlone : ∀ t, Alone t → IsOrdinary t)
    (hTogether : ∀ o c, Together o c → IsPair o c) (h : Segmented Alone Together w)
    (names : NameSupply) :
    Nests Alone Together classes w (seedTree classes names w).1.children := by
  obtain ⟨ns, names', hns, hread⟩ := readTokens_segmented hAlone hTogether h {} names
  rw [seedTree, hread]
  exact hns

/-- A nested segment of an example is a node of its tree, at the offset of its first bracket. -/
theorem mem_offsets_segment (classes : List (String × String)) (names : NameSupply)
    (hp : IsPair o c) (hw : Nested w) (u v : List String) :
    ∃ l ns, Nests IsOrdinary IsPair classes w ns ∧
      (u.length, .branch l (classNode classes o :: ns ++ [classNode classes c])) ∈
        offsetsOf 0 (seedTree classes names (u ++ (o :: w ++ [c]) ++ v)).1.children := by
  obtain ⟨s, names', hs⟩ : ∃ s names', readTokens classes {} names u = (s, names') := ⟨_, _, rfl⟩
  obtain ⟨ns, names'', hns, hread⟩ := readTokens_segmented (fun _ => id) (fun _ _ => id)
    hw.segmented ⟨[classNode classes o], s.current :: s.outer⟩ names'
  refine ⟨names''.fresh.1, ns, hns, ?_⟩
  have hbefore : s.line.flatMap leaves = u.map .terminal := by
    rw [← leaves_line_readTokens classes names, hs]
  have hgroups := groupsTo_seedTree classes names (u ++ (o :: w ++ [c])) v
  rw [readTokens_append, hs, readTokens_segment hp hread] at hgroups
  -- The segment is added behind the tokens before it, and what comes later moves no terminal.
  have hmem := mem_offsetsOf_branch 0 s.line (v.map (classNode classes)) names''.fresh.1
    (classNode classes o :: ns ++ [classNode classes c])
  rw [hbefore, List.length_map, Nat.zero_add] at hmem
  exact (hgroups.sublist_offsets 0).subset (by simpa [line, add] using hmem)

/-- The segments below a root that have so many terminals, the first of them at this position. -/
def Node.segmentsAt (root : Node) (start length : Nat) : List Node :=
  (((offsetsOf 0 root.children).filter fun p => p.2.isSegment).filter fun p =>
    p.1 == start && p.2.leaves.length == length).map Prod.snd

/-- No two segments of an example begin at one position. -/
theorem segmentsAt_eq_singleton {names : NameSupply} {tokens : List String} {start length : Nat}
    {n : Node} (hn : n.isSegment = true) (hlength : n.leaves.length = length)
    (h : (start, n) ∈ offsetsOf 0 (seedTree classes names tokens).1.children) :
    (seedTree classes names tokens).1.segmentsAt start length = [n] := by
  have hoffsets : (((offsetsOf 0 (seedTree classes names tokens).1.children).filter
      fun p => p.2.isSegment).map Prod.fst).Nodup := by
    have hbegin : segmentOffsets 0 (seedTree classes names tokens).1.children =
        tokens.findIdxs opensSegment := segmentOffsets_seedTree names tokens
    rw [segmentOffsets] at hbegin
    rw [hbegin]
    exact List.nodup_findIdxs
  have hmem : (start, n) ∈ (offsetsOf 0 (seedTree classes names tokens).1.children).filter
      fun p => p.2.isSegment := List.mem_filter.mpr ⟨h, hn⟩
  rw [segmentsAt, ← List.map_singleton (f := Prod.snd) (a := (start, n))]
  congr 1
  refine List.perm_singleton.mp ((List.perm_ext_iff_of_nodup (hoffsets.of_map.filter _)
    (List.nodup_singleton _)).mpr fun b => ?_)
  rw [List.mem_filter, List.mem_singleton, Bool.and_eq_true, beq_iff_eq, beq_iff_eq]
  constructor
  · rintro ⟨hb, hstart, -⟩
    exact List.inj_on_of_nodup_map hoffsets hb hmem hstart
  · rintro rfl
    exact ⟨hmem, rfl, hlength⟩

/-- Each nested segment of an example is one node of its tree, whatever stands around it. The first
and last child of the node are the classes of the brackets. Between them each largest segment is one
child, and the other children are the classes of ordinary tokens. -/
theorem nested_segments_are_nodes {examples : List (List String)} {k : Nat} (names : NameSupply)
    (hexample : examples[k]? = some (u ++ [o] ++ w ++ [c] ++ v)) (ho : opensSegment o = true)
    (hc : closesSegment c = true) (hw : Nested w) :
    ∃ root n first inner last, (seedForest names examples).1[k]? = some root ∧
      root.leaves = (u ++ [o] ++ w ++ [c] ++ v).map .terminal ∧
      root.segmentsAt u.length (w.length + 2) = [n] ∧
      n.children = first :: inner ++ [last] ∧ first.IsClassOf o ∧ last.IsClassOf c ∧
      inner.flatMap leaves = w.map .terminal ∧
      (∀ x s y, IsMaximalSegment w x s y → ∃ before m after, inner = before ++ m :: after ∧
        before.flatMap leaves = x.map .terminal ∧ m.isSegment = true ∧
        m.leaves = s.map .terminal) ∧
      ∀ m ∈ inner, (∃ t, IsOrdinary t ∧ m.IsClassOf t) ∨
        m.isSegment = true ∧ ∃ s, Bracketed s ∧ m.leaves = s.map .terminal := by
  have hsplit : u ++ [o] ++ w ++ [c] ++ v = u ++ (o :: w ++ [c]) ++ v := by simp
  rw [hsplit] at hexample ⊢
  obtain ⟨names', hroot⟩ := exists_seedTree names hexample
  obtain ⟨l, ns, hns, hmem⟩ :=
    mem_offsets_segment (seedClasses names examples) names' ⟨ho, hc⟩ hw u v
  have hlength := congrArg List.length (hns.leaves_branch_eq l o c)
  refine ⟨_, _, _, ns, _, hroot, ?_,
    segmentsAt_eq_singleton (hns.isSegment_branch l o c) (hlength.trans (by simp)) hmem, rfl,
    isClassOf_classNode _ o, isClassOf_classNode _ c, hns.leaves_eq,
    fun x s y => hns.exists_child, hns.child_cases⟩
  exact (leaves_branch _ _).trans (leaves_children_seedTree _ _ _)

/-- A nested list in which brackets of different kinds close each other. -/
def mixedInside : List String := ["x", "(", "\x7b", "y", "]", "\x7d", "z", "[", "]"]

/-- Two examples; in the second one the list stands between brackets, with brackets around it that
open or close nothing. -/
def mixedExamples : List (List String) :=
  [["a"], [")", "(", "a"] ++ ["["] ++ mixedInside ++ [")"] ++ ["]", "]", "\x7b"]]

/-- The first segment inside is a largest one: no segment begins with an ordinary token, and none at
the same bracket is longer. -/
theorem isMaximalSegment_mixedInside :
    IsMaximalSegment mixedInside ["x"] ["(", "\x7b", "y", "]", "\x7d"] ["z", "[", "]"] := by
  have hs : Bracketed ["(", "\x7b", "y", "]", "\x7d"] :=
    ⟨"(", ["\x7b", "y", "]"], "\x7d", rfl, ⟨rfl, rfl⟩, by decide⟩
  refine ⟨rfl, hs, fun x' s' y' heq hs' hx ⟨z, hz⟩ => ?_⟩
  rcases List.prefix_cons_iff.mp hx with rfl | ⟨t, rfl, ht⟩
  · obtain ⟨o, w, c, rfl, hp, -⟩ := hs'
    obtain rfl : "x" = o := (List.cons.inj heq).1
    cases hp.1
  · obtain rfl := List.prefix_nil.mp ht
    have hlonger : ["(", "\x7b", "y", "]", "\x7d"] ++ z = s' := by
      have hrest : ["(", "\x7b", "y", "]", "\x7d"] ++ z ++ y' = s' ++ y' := by
        rw [List.append_assoc, hz]
        exact (List.cons.inj heq).2
      exact List.append_cancel_right hrest
    have hsame := hs'.eq_of_prefix hs ⟨z, hlonger⟩
    obtain rfl : z = [] := List.append_right_eq_self.mp (hlonger.trans hsame.symm)
    exact ⟨rfl, hz⟩

/-- The segment is one node of eleven terminals after the first three tokens, and what it holds
between its first and last child has the inner segment as one child. -/
theorem nested_segments_are_nodes_mixedExamples :
    Nested mixedInside ∧
    IsMaximalSegment mixedInside ["x"] ["(", "\x7b", "y", "]", "\x7d"] ["z", "[", "]"] ∧
    ∃ root n first last before m after, (seedForest {} mixedExamples).1[1]? = some root ∧
      root.segmentsAt 3 11 = [n] ∧ n.children = first :: (before ++ m :: after) ++ [last] ∧
      first.IsClassOf "[" ∧ last.IsClassOf ")" ∧ before.flatMap leaves = [.terminal "x"] ∧
      m.isSegment = true ∧ m.leaves = ["(", "\x7b", "y", "]", "\x7d"].map .terminal := by
  have hw : Nested mixedInside := by decide
  have hexample : mixedExamples[1]? =
      some ([")", "(", "a"] ++ ["["] ++ mixedInside ++ [")"] ++ ["]", "]", "\x7b"]) := rfl
  obtain ⟨root, n, first, inner, last, hroot, -, hn, hchildren, hfirst, hlast, -, hsegments, -⟩ :=
    nested_segments_are_nodes {} hexample rfl rfl hw
  obtain ⟨before, m, after, rfl, hbefore, hm, hleaves⟩ :=
    hsegments _ _ _ isMaximalSegment_mixedInside
  exact ⟨hw, isMaximalSegment_mixedInside, root, n, first, last, before, m, after, hroot, hn,
    hchildren, hfirst, hlast, hbefore, hm, hleaves⟩

end GrammarInduction
