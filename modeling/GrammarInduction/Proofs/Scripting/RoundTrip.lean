import GrammarInduction.Proofs.Forest.SeedShape
import GrammarInduction.Proofs.Scripting.Resolution

/-!
Forests on their way to a script and back. What a session gives to a script holds no terminal with
children: a first forest has none, what was let in has none, and an application makes none. So
whatever comes from a session is let in again, as the forest that it was.
-/
namespace GrammarInduction

/-- Terminals of first forests hold no children. -/
theorem proper_seedForest (names : NameSupply) (examples : List (List String)) :
    ∀ tree ∈ (seedForest names examples).1, tree.Proper := by
  have hclass : ∀ classes token, (classNode classes token).Proper := fun classes token =>
    .branch fun c hc => List.mem_singleton.mp hc ▸ .terminal token
  intro tree htree
  obtain ⟨cs, rfl, hcs⟩ :=
    forall_children_seedForest (fun _ _ => Node.Proper.branch) hclass names examples tree htree
  exact .branch hcs

namespace Scripting

namespace Value

variable {v : Value}

/-- A triple that is let in is that of a node whose children are let in, and which has none if it is
a terminal. -/
theorem toNode_eq_ok {n : Node} (h : toNode v = .ok n) :
    (n.isTerminal = true → n.children = []) ∧ ∃ children, toForest children = .ok n.children := by
  unfold toNode at h
  split at h
  · rename_i l t children
    obtain ⟨cs, hcs, h⟩ := Except.bind_eq_ok_iff.mp h
    split at h
    · cases h
    · rename_i hladen
      obtain rfl := Except.ok.inj h
      exact ⟨by simpa using hladen, children, hcs⟩
  · cases h

lemma exists_of_mem_toNodes {vs : List Value} {ns : List Node} (h : toNodes vs = .ok ns) :
    ∀ n ∈ ns, ∃ v, toNode v = .ok n := by
  induction vs generalizing ns with
  | nil =>
    obtain rfl := Except.ok.inj h
    exact fun _ hn => absurd hn List.not_mem_nil
  | cons v vs ih =>
    rw [toNodes] at h
    obtain ⟨n, hn, h⟩ := Except.bind_eq_ok_iff.mp h
    obtain ⟨ns', hns, h⟩ := Except.bind_eq_ok_iff.mp h
    obtain rfl := Except.ok.inj h
    exact List.forall_mem_cons.mpr ⟨⟨v, hn⟩, ih hns⟩

lemma exists_of_mem_toForest {trees : Forest} (h : v.toForest = .ok trees) :
    ∀ n ∈ trees, ∃ w, toNode w = .ok n := by
  rw [toForest_eq] at h
  obtain ⟨vs, -, hvs⟩ := Except.bind_eq_ok_iff.mp h
  exact exists_of_mem_toNodes hvs

lemma proper_of_toNode {n : Node} (h : toNode v = .ok n) : n.Proper := by
  induction n using Node.induct generalizing v with
  | step l t cs ih =>
    obtain ⟨hempty, children, hchildren⟩ := toNode_eq_ok h
    refine Node.proper_iff.mpr ⟨hempty, fun c hc => ?_⟩
    obtain ⟨w, hw⟩ := exists_of_mem_toForest hchildren c hc
    exact ih c hc hw

/-- No terminal of a forest that is let in holds children. -/
theorem proper_of_toForest {trees : Forest} (h : v.toForest = .ok trees) :
    ∀ n ∈ trees, n.Proper := by
  intro n hn
  obtain ⟨w, hw⟩ := exists_of_mem_toForest h n hn
  exact proper_of_toNode hw

end Value

namespace ScriptSession

/-- A value is let in as a forest, by every session: a proposal goes on with the forest and does not
fail for the value, and an application works on the forest. -/
structure LetIn (v : Value) (trees : Forest) : Prop where
  read : v.toForest = .ok trees
  proposed : ∀ s : ScriptSession, s.propose v = s.proposeForest trees ∧
    ∀ e, (s.propose v).1 = .error e →
      (∃ refusal, e = .refused refusal) ∨ ∃ fault, e = .aborted fault
  applied : ∀ (s : ScriptSession) (ids : List String),
    s.apply v (.ofTexts ids) = (applyKnown s.known trees ids).map Value.ofForest

variable {s : ScriptSession} {v : Value}

/-- A proposal for a forest fails in its survey or in its ranking. -/
theorem proposeForest_eq_error {trees : Forest} {e : CallError}
    (h : (s.proposeForest trees).1 = .error e) :
    (∃ refusal, e = .refused refusal) ∨ ∃ fault, e = .aborted fault := by
  unfold proposeForest at h
  split at h
  · exact .inl ⟨_, (Except.error.inj h).symm⟩
  · exact .inr ⟨_, (Except.error.inj h).symm⟩
  · split at h
    · exact .inr ⟨_, (Except.error.inj h).symm⟩
    · cases h

/-- A forest whose terminals hold no children is let in. -/
theorem letIn_ofForest {trees : Forest} (h : ∀ n ∈ trees, n.Proper) :
    LetIn (.ofForest trees) trees := by
  have hread := Value.toForest_ofForest h
  have hpropose : ∀ s : ScriptSession,
      s.propose (.ofForest trees) = s.proposeForest trees := fun s => by rw [propose, hread]
  refine ⟨hread, fun s => ⟨hpropose s, fun e he => ?_⟩, fun s ids => apply_ofForest s h ids⟩
  rw [hpropose] at he
  exact proposeForest_eq_error he

def forest? (s : ScriptSession) : Request → Option Value
  | .seed examples =>
    match s.seed examples with
    | .ok (v, _) => some v
    | .error _ => none
  | .apply trees ids =>
    match s.apply trees ids with
    | .ok v => some v
    | .error _ => none
  | _ => none

def forests (s : ScriptSession) : List Request → List Value
  | [] => []
  | request :: requests => (s.forest? request).toList ++ (s.after request).forests requests

lemma proper_applyKnown {known : Catalogue String Candidate} {ids : List String}
    {trees out : Forest} (ht : ∀ n ∈ trees, n.Proper) (h : applyKnown known trees ids = .ok out) :
    ∀ n ∈ out, n.Proper := by
  induction ids generalizing trees with
  | nil => exact Except.ok.inj h ▸ ht
  | cons id ids ih =>
    rw [applyKnown] at h
    split at h
    · cases h
    · obtain ⟨mid, hmid, h⟩ := Except.bind_eq_ok_iff.mp h
      exact ih (Grouping.proper_apply ht (Except.mapError_eq_ok_iff.mp hmid)) h

/-- What a call returns is a forest whose terminals hold no children. -/
theorem proper_of_forest? {request : Request} (h : s.forest? request = some v) :
    ∃ trees : Forest, (∀ n ∈ trees, n.Proper) ∧ v = .ofForest trees := by
  cases request with
  | seed examples =>
    rw [forest?] at h
    split at h
    · rename_i w s' hseed
      obtain ⟨es, -, hseed⟩ := Except.bind_eq_ok_iff.mp hseed
      obtain ⟨rfl, -⟩ := Prod.mk.inj (Except.ok.inj hseed)
      exact ⟨_, proper_seedForest _ es, (Option.some.inj h).symm⟩
    · cases h
  | apply trees ids =>
    rw [forest?] at h
    split at h
    · rename_i w happly
      obtain ⟨forest, hforest, happly⟩ := Except.bind_eq_ok_iff.mp happly
      obtain ⟨texts, -, happly⟩ := Except.bind_eq_ok_iff.mp happly
      obtain ⟨out, hout, happly⟩ := Except.bind_eq_ok_iff.mp happly
      obtain rfl := Except.ok.inj happly
      exact ⟨out, proper_applyKnown (Value.proper_of_toForest hforest) hout,
        (Option.some.inj h).symm⟩
    · cases h
  | propose trees => cases h
  | setBounds minLen maxLen => cases h
  | clearMemo => cases h
  | reset => cases h

lemma proper_of_mem_forests {requests : List Request} (h : v ∈ s.forests requests) :
    ∃ trees : Forest, (∀ n ∈ trees, n.Proper) ∧ v = .ofForest trees := by
  induction requests generalizing s with
  | nil => exact absurd h List.not_mem_nil
  | cons request requests ih =>
    rcases List.mem_append.mp h with h | h
    · exact proper_of_forest? (Option.mem_toList.mp h)
    · exact ih h

end ScriptSession

open ScriptSession

/-- A tree comes back from a script exactly if no terminal in it holds children, and otherwise the
first of these terminals is reported. Whatever is called, every forest that a call returns is let in
again as the forest that it was. -/
theorem forests_come_back :
    (∀ n : Node, (Value.toNode (.ofNode n) = .ok n ↔ n.Proper) ∧
        (¬n.Proper → ∃ l, n.laden.head? = some l ∧
          Value.toNode (.ofNode n) = .error (.terminalWithChildren l))) ∧
      ∀ (s : ScriptSession) (requests : List Request), ∀ v ∈ s.forests requests,
        ∃ trees : Forest, v = .ofForest trees ∧ (∀ n ∈ trees, n.Proper) ∧ LetIn v trees := by
  constructor
  · intro n
    rw [Value.toNode_ofNode, ← Node.laden_eq_nil_iff]
    cases n.laden with
    | nil => simp [Value.unlessLaden]
    | cons l ls => simp [Value.unlessLaden]
  · intro s requests v hv
    obtain ⟨trees, hproper, rfl⟩ := proper_of_mem_forests hv
    exact ⟨trees, rfl, hproper, letIn_ofForest hproper⟩

/-- A terminal with children below another one. -/
def ladenTree : Node :=
  .branch "START" [⟨"a", true, [⟨"b", true, [.terminal "c"]⟩]⟩, ⟨"d", true, [.terminal "e"]⟩]

/-- Calls of which the first and the last one return a forest. -/
def seedAndApply : List Request :=
  [.seed (.list [.ofTexts ["(", "("]]), .propose (.ofForest openForest),
    .apply (.ofForest openForest) (.ofTexts ["t3"])]

/-- Both forests are let in again, and a tree of which the inner terminal is reported is not. -/
theorem forests_come_back_seedAndApply :
    Value.toNode (.ofNode ladenTree) = .error (.terminalWithChildren "b") ∧
      ∃ v w, usualScript.forests seedAndApply = [v, w] ∧
        (∃ trees, v = .ofForest trees ∧ LetIn v trees) ∧
        ∃ trees, w = .ofForest trees ∧ LetIn w trees := by
  obtain ⟨htree, hall⟩ := forests_come_back
  have hladen : ¬ladenTree.Proper := fun h => absurd (Node.laden_eq_nil_iff.mpr h) (by decide)
  obtain ⟨l, hl, herror⟩ := (htree ladenTree).2 hladen
  obtain rfl : l = "b" := Option.some.inj (hl.symm.trans (by decide))
  have hlen : (usualScript.forests seedAndApply).length = 2 := by decide +kernel
  obtain ⟨v, w, heq⟩ := List.length_eq_two.mp hlen
  obtain ⟨trees, htrees, -, hletIn⟩ := hall usualScript seedAndApply v (by simp [heq])
  obtain ⟨trees', htrees', -, hletIn'⟩ := hall usualScript seedAndApply w (by simp [heq])
  exact ⟨herror, v, w, heq, ⟨trees, htrees, hletIn⟩, trees', htrees', hletIn'⟩

end Scripting
end GrammarInduction
