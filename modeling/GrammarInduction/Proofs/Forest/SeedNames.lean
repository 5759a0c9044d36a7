import GrammarInduction.Proofs.Forest.SeedShape
import GrammarInduction.Proofs.NameSupply.Handing

/-!
The names of first forests. One name goes to each distinct token, and one to each segment when it
ends, so inner segments have theirs before those around them.
-/
namespace GrammarInduction
namespace Node

/-- Whether a node stands for a segment: a nonterminal without terminals among its children. -/
def isSegment (n : Node) : Bool := !n.isTerminal && n.children.all fun c => !c.isTerminal

mutual
/-- The labels of the segments of a tree, inner ones before those around them. -/
def segmentLabels : Node → List String
  | ⟨l, t, cs⟩ => segmentLabelsOf cs ++ if (Node.mk l t cs).isSegment then [l] else []
def segmentLabelsOf : List Node → List String
  | [] => []
  | n :: ns => n.segmentLabels ++ segmentLabelsOf ns
end

@[simp] lemma segmentLabelsOf_nil : segmentLabelsOf [] = [] := by simp [segmentLabelsOf]

@[simp] lemma segmentLabelsOf_cons (n : Node) (ns : List Node) :
    segmentLabelsOf (n :: ns) = n.segmentLabels ++ segmentLabelsOf ns := by simp [segmentLabelsOf]

@[simp] lemma segmentLabelsOf_append (ns ms : List Node) :
    segmentLabelsOf (ns ++ ms) = segmentLabelsOf ns ++ segmentLabelsOf ms := by
  induction ns with
  | nil => simp
  | cons n ns ih => simp [ih]

lemma segmentLabels_branch {l : String} {cs : List Node}
    (h : ∀ c ∈ cs, c.isTerminal = false) :
    (branch l cs).segmentLabels = segmentLabelsOf cs ++ [l] := by
  have hs : (Node.mk l false cs).isSegment = true := by
    simpa [isSegment] using h
  rw [branch, segmentLabels, if_pos hs]

end Node

open Node NameSupply

@[simp] lemma segmentLabels_classNode (classes : List (String × String)) (token : String) :
    (classNode classes token).segmentLabels = [] := by
  simp [classNode, branch, terminal, segmentLabels, isSegment]

/-- Naming tokens hands out their names. -/
theorem handsOut_nameTokens (names : NameSupply) (tokens : List String) :
    names.HandsOut ((nameTokens names tokens).1.map Prod.snd) (nameTokens names tokens).2 := by
  induction tokens generalizing names with
  | nil => exact .nil names
  | cons token rest ih => exact .cons (ih names.fresh.2)

variable {start names : NameSupply} {done : List String} {classes : List (String × String)}

namespace OpenSegments

/-- No terminal was read without a node above it. -/
def Inner (s : OpenSegments) : Prop :=
  (∀ n ∈ s.current, n.isTerminal = false) ∧ ∀ ns ∈ s.outer, ∀ n ∈ ns, n.isTerminal = false

/-- The labels of the segments that were read, those of the outermost open one first. -/
def labels (s : OpenSegments) : List String :=
  s.outer.reverse.flatMap segmentLabelsOf ++ segmentLabelsOf s.current

variable {s : OpenSegments}

/-- A segment that is closed adds its label behind all others. -/
theorem labels_close {current parent : List Node} {outer : List (List Node)}
    (hcurrent : ∀ n ∈ current, n.isTerminal = false) (l : String) :
    (OpenSegments.mk (parent ++ [.branch l current]) outer).labels =
      (OpenSegments.mk current (parent :: outer)).labels ++ [l] := by
  simp [labels, segmentLabels_branch hcurrent]

lemma labels_add_classNode (s : OpenSegments) (classes : List (String × String))
    (token : String) : (s.add (classNode classes token)).labels = s.labels := by
  simp [labels, add]

lemma labels_begin (s : OpenSegments) : s.begin.labels = s.labels := by simp [labels, begin]

/-- Reading a token hands out a name exactly if it closes a segment. -/
theorem handsOut_read (hs : s.Inner) (h : start.HandsOut (done ++ s.labels) names)
    (token : String) :
    start.HandsOut (done ++ (s.read names token (classNode classes token)).1.labels)
      (s.read names token (classNode classes token)).2 := by
  obtain ⟨current, outer⟩ := s
  have hadd := labels_add_classNode ⟨current, outer⟩ classes token
  rw [read]
  by_cases hopen : opensSegment token = true
  · rw [if_pos hopen, labels_add_classNode, labels_begin]
    exact h
  · rw [if_neg hopen]
    by_cases hclose : closesSegment token = true
    · rw [if_pos hclose]
      cases outer with
      | nil => exact hadd ▸ h
      | cons parent outer =>
        -- The bracket itself is the last child of the segment that it closes.
        have hinner : ∀ n ∈ current ++ [classNode classes token], n.isTerminal = false :=
          (All.add hs rfl).1
        have hfresh := (hadd.symm ▸ h).append (handsOut_fresh names)
        rw [List.append_assoc, add, ← labels_close hinner] at hfresh
        exact hfresh
    · rw [if_neg hclose]
      exact hadd ▸ h

/-- Ending the open segments hands out a name to each of them. -/
theorem handsOut_finish {current : List Node} {outer : List (List Node)}
    (hs : (OpenSegments.mk current outer).Inner)
    (h : start.HandsOut (done ++ (OpenSegments.mk current outer).labels) names) :
    start.HandsOut (done ++ segmentLabelsOf (finish current names outer).1)
      (finish current names outer).2 := by
  induction outer generalizing current names with
  | nil => simpa [labels, finish] using h
  | cons parent outer ih =>
    apply ih (All.close hs rfl)
    rw [labels_close hs.1, ← List.append_assoc]
    exact h.append (handsOut_fresh names)

end OpenSegments

open OpenSegments

lemma handsOut_readTokens (classes : List (String × String)) {s : OpenSegments} (hs : s.Inner)
    (h : start.HandsOut (done ++ s.labels) names) (tokens : List String) :
    (readTokens classes s names tokens).1.Inner ∧
      start.HandsOut (done ++ (readTokens classes s names tokens).1.labels)
        (readTokens classes s names tokens).2 := by
  induction tokens generalizing s names with
  | nil => exact ⟨hs, h⟩
  | cons token rest ih =>
    exact ih (All.read (fun _ _ _ => rfl) hs rfl names token) (handsOut_read hs h token)

/-- The tree of an example takes the names of its segments. -/
theorem handsOut_seedTree (classes : List (String × String)) (names : NameSupply)
    (tokens : List String) :
    names.HandsOut (segmentLabelsOf (seedTree classes names tokens).1.children)
      (seedTree classes names tokens).2 := by
  have hstart : names.HandsOut ([] ++ ({} : OpenSegments).labels) names := .nil names
  obtain ⟨hinner, hread⟩ := handsOut_readTokens classes all_empty hstart tokens
  have hfinish := handsOut_finish hinner hread
  rwa [List.nil_append] at hfinish

def Forest.segmentLabels (trees : Forest) : List String :=
  trees.flatMap fun n => segmentLabelsOf n.children

lemma handsOut_seedTrees (classes : List (String × String)) (names : NameSupply)
    (examples : List (List String)) :
    names.HandsOut (seedTrees classes names examples).1.segmentLabels
      (seedTrees classes names examples).2 := by
  induction examples generalizing names with
  | nil => exact .nil names
  | cons tokens rest ih => exact (handsOut_seedTree classes names tokens).append (ih _)

/-- The names of a first forest: those of the classes, then those of the segments. -/
def seedNames (names : NameSupply) (examples : List (List String)) : List String :=
  (nameTokens names (distinctTokens examples.flatten)).1.map Prod.snd ++
    (seedForest names examples).1.segmentLabels

/-- A first forest takes no other names than these. -/
theorem handsOut_seedForest (names : NameSupply) (examples : List (List String)) :
    names.HandsOut (seedNames names examples) (seedForest names examples).2 :=
  (handsOut_nameTokens names _).append (handsOut_seedTrees _ _ examples)

end GrammarInduction
