import GrammarInduction.Proofs.Balance.Language
import GrammarInduction.Proofs.Forest.NestedSegments

/-!
Balanced runs in first forests. In an example whose brackets are nested and match in kind, each node
below the root derives matching brackets. So a run of children is balanced unless it has one of the
two brackets of its segment and not the other one.
-/
namespace GrammarInduction

open Node Balance

variable {classes : List (String × String)} {ns before run after : List Node} {w : List String}
  {o c t : String}

def IsPlainToken (token : String) : Prop := ∀ ch ∈ token.toList, IsPlain ch

instance : DecidablePred IsPlainToken := fun token =>
  decidable_of_iff (token.toList.all fun ch =>
    !isQuote ch && brackets.all fun p => ch != p.1 && ch != p.2) (by simp [IsPlainToken, IsPlain])

def IsMatchingPair (o c : String) : Prop :=
  ∃ p ∈ brackets, o = String.singleton p.1 ∧ c = String.singleton p.2

lemma exists_of_opensSegment (h : opensSegment t = true) :
    ∃ p ∈ brackets, t = String.singleton p.1 := by
  simp only [opensSegment, Bool.or_eq_true, beq_iff_eq] at h
  rcases h with (rfl | rfl) | rfl
  · exact ⟨('(', ')'), by decide, rfl⟩
  · exact ⟨('[', ']'), by decide, rfl⟩
  · exact ⟨('{', '}'), by decide, rfl⟩

lemma exists_of_closesSegment (h : closesSegment t = true) :
    ∃ p ∈ brackets, t = String.singleton p.2 := by
  simp only [closesSegment, Bool.or_eq_true, beq_iff_eq] at h
  rcases h with (rfl | rfl) | rfl
  · exact ⟨('(', ')'), by decide, rfl⟩
  · exact ⟨('[', ']'), by decide, rfl⟩
  · exact ⟨('{', '}'), by decide, rfl⟩

lemma IsPlainToken.isOrdinary (h : IsPlainToken t) : IsOrdinary t := by
  constructor
  · rw [← Bool.not_eq_true]
    intro ho
    obtain ⟨p, hp, rfl⟩ := exists_of_opensSegment ho
    exact ((h p.1 (by simp)).2 p hp).1 rfl
  · rw [← Bool.not_eq_true]
    intro hc
    obtain ⟨p, hp, rfl⟩ := exists_of_closesSegment hc
    exact ((h p.2 (by simp)).2 p hp).2 rfl

lemma IsMatchingPair.isPair (h : IsMatchingPair o c) : IsPair o c := by
  obtain ⟨p, hp, rfl, rfl⟩ := h
  have hpairs : ∀ p ∈ brackets, IsPair (String.singleton p.1) (String.singleton p.2) := by
    simp only [IsPair]
    decide
  exact hpairs p hp

namespace Balance

lemma matched_of_forall_isPlain {cs : List Char} (h : ∀ ch ∈ cs, IsPlain ch) : Matched cs := by
  induction cs with
  | nil => exact .empty
  | cons ch cs ih =>
    obtain ⟨hch, hcs⟩ := List.forall_mem_cons.mp h
    exact .plain hch .empty (ih hcs)

lemma matched_between {p : Char × Char} {cs : List Char} (hp : p ∈ brackets) (h : Matched cs) :
    Matched (p.1 :: cs ++ [p.2]) := .pair hp .empty h .empty

/-- Nodes that derive matching brackets do so together. -/
theorem matched_join (h : ∀ n ∈ ns, Matched n.text.toList) :
    Matched (String.join (ns.map text)).toList := by
  induction ns with
  | nil => exact .empty
  | cons n ns ih =>
    obtain ⟨hn, hns⟩ := List.forall_mem_cons.mp h
    rw [List.map_cons, String.join_cons, String.toList_append]
    exact hn.append (ih hns)

lemma isBalanced_of_matched {text : String} (h : Matched text.toList) :
    isBalanced text = true := by
  rw [isBalanced, ← List.append_nil text.toList, reads_matched_append h, reads_nil,
    List.isEmpty_nil]

/-- An opening bracket before matching ones stays open. -/
theorem isBalanced_opened {text : String} {p : Char × Char} {cs : List Char} (hp : p ∈ brackets)
    (h : Matched cs) (ht : text.toList = p.1 :: cs) : isBalanced text = false := by
  obtain ⟨⟨hq, ho⟩, -⟩ := brackets_spec p hp
  rw [isBalanced, ht, reads_opener hq ho, ← List.append_nil cs, reads_matched_append h, reads_nil,
    List.isEmpty_cons]

/-- A closing bracket behind matching ones closes nothing. -/
theorem isBalanced_closed {text : String} {p : Char × Char} {cs : List Char} (hp : p ∈ brackets)
    (h : Matched cs) (ht : text.toList = cs ++ [p.2]) : isBalanced text = false := by
  obtain ⟨-, hq, ho, hc⟩ := brackets_spec p hp
  rw [isBalanced, ht, reads_matched_append h, reads_closer_nil hq ho hc]

end Balance

@[simp] lemma text_classNode (classes : List (String × String)) (token : String) :
    (classNode classes token).text = token := by
  rw [classNode, text_branch, List.map_singleton, text_terminal, String.join_cons, String.join_nil,
    String.append_empty]

/-- The nodes of nested brackets derive matching ones. -/
theorem Nests.matched (h : Nests IsPlainToken IsMatchingPair classes w ns) :
    ∀ n ∈ ns, Matched n.text.toList := by
  induction h with
  | nil => exact fun _ hn => absurd hn List.not_mem_nil
  | token ht _ ih =>
    refine List.forall_mem_cons.mpr ⟨?_, ih⟩
    rw [text_classNode]
    exact matched_of_forall_isPlain ht
  | @segment o c l w v ns ms hp _ _ ihw ihv =>
    refine List.forall_mem_cons.mpr ⟨?_, ihv⟩
    obtain ⟨p, hp, rfl, rfl⟩ := hp
    have hmatched := matched_between hp (matched_join ihw)
    simpa [text_branch, String.join_append, String.join_cons, String.toList_append] using hmatched

/-- A run of a list between two ends has both ends, one of them, or none. -/
theorem run_cases {α : Type _} {a z : α} {inner before run after : List α}
    (h : a :: inner ++ [z] = before ++ run ++ after) (hne : run ≠ []) :
    (before = [] ∧ after = [] ∧ run = a :: inner ++ [z]) ∨
      (before = [] ∧ after ≠ [] ∧ ∃ rest, run = a :: rest ∧ rest ⊆ inner) ∨
      (before ≠ [] ∧ after = [] ∧ ∃ rest, run = rest ++ [z] ∧ rest ⊆ inner) ∨
      (before ≠ [] ∧ after ≠ [] ∧ run ⊆ inner) := by
  cases before with
  | nil =>
    rw [List.nil_append] at h
    rcases List.eq_nil_or_concat' after with rfl | ⟨after, last, rfl⟩
    · exact .inl ⟨rfl, rfl, by rw [h, List.append_nil]⟩
    · rw [← List.append_assoc] at h
      obtain ⟨first, rest, rfl⟩ := List.exists_cons_of_ne_nil hne
      obtain ⟨rfl, rfl⟩ := List.cons.inj (List.append_inj' h rfl).1
      exact .inr (.inl ⟨rfl, by simp, rest, rfl, List.subset_append_left rest after⟩)
  | cons first before =>
    rw [List.cons_append, List.cons_append, List.cons_append] at h
    have hrest := (List.cons.inj h).2
    rcases List.eq_nil_or_concat' after with rfl | ⟨after, last, rfl⟩
    · obtain ⟨rest, last, rfl⟩ := (List.eq_nil_or_concat' run).resolve_left hne
      rw [List.append_nil, ← List.append_assoc] at hrest
      obtain ⟨rfl, hlast⟩ := List.append_inj' hrest rfl
      obtain rfl := List.singleton_inj.mp hlast
      exact .inr (.inr (.inl ⟨by simp, rfl, rest, rfl, List.subset_append_right before rest⟩))
    · rw [← List.append_assoc] at hrest
      obtain rfl := (List.append_inj' hrest rfl).1
      refine .inr (.inr (.inr ⟨by simp, by simp, fun n hn => ?_⟩))
      exact List.mem_append_left _ (List.mem_append_right _ hn)

/-- A run of children of a segment is balanced unless it has one of the brackets only. -/
theorem isBalanced_run_iff {inner : List Node} (hp : IsMatchingPair o c)
    (hinner : ∀ n ∈ inner, Matched n.text.toList)
    (h : classNode classes o :: inner ++ [classNode classes c] = before ++ run ++ after)
    (hne : run ≠ []) :
    isBalanced (String.join (run.map text)) = true ↔ (before = [] ↔ after = []) := by
  obtain ⟨p, hp, rfl, rfl⟩ := hp
  have hsub : ∀ {ms}, ms ⊆ inner → Matched (String.join (ms.map text)).toList :=
    fun hms => matched_join fun n hn => hinner n (hms hn)
  rcases run_cases h hne with ⟨hb, ha, rfl⟩ | ⟨hb, ha, rest, rfl, hrest⟩ |
    ⟨hb, ha, rest, rfl, hrest⟩ | ⟨hb, ha, hrest⟩
  · have hmatched := matched_between hp (hsub (List.Subset.refl inner))
    refine iff_of_true (isBalanced_of_matched ?_) (iff_of_true hb ha)
    simpa [String.join_append, String.join_cons, String.toList_append] using hmatched
  · refine iff_of_false (Bool.eq_false_iff.mp (isBalanced_opened hp (hsub hrest) ?_))
      fun h => ha (h.mp hb)
    simp [String.join_cons, String.toList_append]
  · refine iff_of_false (Bool.eq_false_iff.mp (isBalanced_closed hp (hsub hrest) ?_))
      fun h => hb (h.mpr ha)
    simp [String.join_append, String.join_cons]
  · exact iff_of_true (isBalanced_of_matched (hsub hrest)) (iff_of_false hb ha)

/-- The nodes below nested ones are terminals, class nodes, and segments with their brackets. -/
theorem Nests.mem_nodesOf {Alone : String → Prop} {Together : String → String → Prop}
    (h : Nests Alone Together classes w ns) {m : Node} (hm : m ∈ nodesOf ns) :
    (∃ t, m = .terminal t ∨ m = classNode classes t) ∨
      ∃ l o c v ms, Together o c ∧ Nests Alone Together classes v ms ∧
        m = .branch l (classNode classes o :: ms ++ [classNode classes c]) := by
  induction h with
  | nil => rw [nodesOf] at hm; cases hm
  | token ht _ ih =>
    rw [nodesOf, List.mem_append] at hm
    exact hm.elim (fun hm => .inl ⟨_, mem_nodes_classNode.mp hm⟩) ih
  | @segment o c l w v ns ms hp hw hv ihw ihv =>
    rw [nodesOf, List.mem_append, mem_nodes_iff] at hm
    rcases hm with (rfl | hm) | hm
    · exact .inr ⟨l, o, c, w, ns, hp, hw, rfl⟩
    · obtain ⟨n, hn, hm⟩ := mem_nodesOf_iff.mp hm
      rw [children_branch, List.mem_append, List.mem_cons, List.mem_singleton] at hn
      rcases hn with (rfl | hn) | rfl
      · exact .inl ⟨_, mem_nodes_classNode.mp hm⟩
      · exact ihw (mem_nodesOf_iff.mpr ⟨n, hn, hm⟩)
      · exact .inl ⟨_, mem_nodes_classNode.mp hm⟩
    · exact ihv hm

end GrammarInduction
