import Mathlib.Tactic.Lemma
import GrammarInduction.Forest.Seed

/-!
What first forests are made of. A property of the class nodes that passes from all children to their
parent holds of whatever was read, and so of every child of a root.
-/
namespace GrammarInduction

namespace OpenSegments

def All (P : Node → Prop) (s : OpenSegments) : Prop :=
  (∀ n ∈ s.current, P n) ∧ ∀ ns ∈ s.outer, ∀ n ∈ ns, P n

variable {P : Node → Prop} {s : OpenSegments}

lemma all_empty : All P {} :=
  ⟨fun _ hn => absurd hn List.not_mem_nil, fun _ hns => absurd hns List.not_mem_nil⟩

lemma All.add (h : s.All P) {n : Node} (hn : P n) : (s.add n).All P :=
  ⟨List.forall_mem_append.mpr ⟨h.1, List.forall_mem_singleton.mpr hn⟩, h.2⟩

lemma All.begin (h : s.All P) : s.begin.All P :=
  ⟨fun _ hn => absurd hn List.not_mem_nil, List.forall_mem_cons.mpr h⟩

/-- The innermost segment is closed by a node in the list around it. -/
theorem All.close {current parent : List Node} {outer : List (List Node)}
    (h : (OpenSegments.mk current (parent :: outer)).All P) {n : Node} (hn : P n) :
    (OpenSegments.mk (parent ++ [n]) outer).All P := by
  obtain ⟨hparent, houter⟩ := List.forall_mem_cons.mp h.2
  exact ⟨List.forall_mem_append.mpr ⟨hparent, List.forall_mem_singleton.mpr hn⟩, houter⟩

variable (hbranch : ∀ l cs, (∀ c ∈ cs, P c) → P (.branch l cs))

include hbranch

lemma All.read (h : s.All P) {leaf : Node} (hleaf : P leaf) (names : NameSupply)
    (token : String) : (s.read names token leaf).1.All P := by
  obtain ⟨current, outer⟩ := s
  rw [OpenSegments.read]
  by_cases hopen : opensSegment token = true
  · rw [if_pos hopen]
    exact h.begin.add hleaf
  · rw [if_neg hopen]
    by_cases hclose : closesSegment token = true
    · rw [if_pos hclose]
      cases outer with
      | nil => exact h.add hleaf
      | cons parent outer => exact h.close (hbranch _ _ (h.add hleaf).1)
    · rw [if_neg hclose]
      exact h.add hleaf

lemma All.finish {current : List Node} {outer : List (List Node)}
    (h : (OpenSegments.mk current outer).All P) (names : NameSupply) :
    ∀ n ∈ (OpenSegments.finish current names outer).1, P n := by
  induction outer generalizing current names with
  | nil => exact h.1
  | cons parent outer ih => exact ih (h.close (hbranch _ _ h.1)) names.fresh.2

end OpenSegments

section

variable {P : Node → Prop} {classes : List (String × String)}
  (hbranch : ∀ l cs, (∀ c ∈ cs, P c) → P (.branch l cs))
  (hclass : ∀ token, P (classNode classes token))

include hbranch hclass

lemma all_readTokens {s : OpenSegments} (h : s.All P) (names : NameSupply)
    (tokens : List String) : (readTokens classes s names tokens).1.All P := by
  induction tokens generalizing s names with
  | nil => exact h
  | cons token rest ih => exact ih (h.read hbranch (hclass token) names token) _

/-- The tree of an example is a root over what was read. -/
theorem forall_children_seedTree (names : NameSupply) (tokens : List String) :
    ∃ cs, (seedTree classes names tokens).1 = .branch rootLabel cs ∧ ∀ c ∈ cs, P c :=
  ⟨_, rfl, (all_readTokens hbranch hclass OpenSegments.all_empty names tokens).finish hbranch _⟩

lemma forall_children_seedTrees (names : NameSupply) (examples : List (List String)) :
    ∀ tree ∈ (seedTrees classes names examples).1,
      ∃ cs, tree = .branch rootLabel cs ∧ ∀ c ∈ cs, P c := by
  induction examples generalizing names with
  | nil => exact fun _ hn => absurd hn List.not_mem_nil
  | cons tokens rest ih =>
    exact List.forall_mem_cons.mpr ⟨forall_children_seedTree hbranch hclass names tokens, ih _⟩

end

/-- What holds of all class nodes and passes from children to their parent holds of the children of
all roots of a first forest. -/
theorem forall_children_seedForest {P : Node → Prop}
    (hbranch : ∀ l cs, (∀ c ∈ cs, P c) → P (.branch l cs))
    (hclass : ∀ classes token, P (classNode classes token)) (names : NameSupply)
    (examples : List (List String)) :
    ∀ tree ∈ (seedForest names examples).1,
      ∃ cs, tree = .branch rootLabel cs ∧ ∀ c ∈ cs, P c :=
  forall_children_seedTrees hbranch (hclass _) _ examples

end GrammarInduction
