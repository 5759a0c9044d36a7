import GrammarInduction.Proofs.Forest.OnePass

/-!
The rules of forests. Every nonterminal that is reached through nonterminals stands for a rule from
its label to the labels of its children. After a grouping was applied a forest uses the rules of
before with their sides swept, and where the pattern occurred also the one from the new name to the
pattern.
-/
namespace GrammarInduction

/-- Some nonterminal, reached through nonterminals, stands for a rule of this kind. -/
inductive Node.UsesRule (P : String → List String → Prop) : Node → Prop
  | here {l : String} {cs : List Node} (h : P l (Forest.labels cs)) : UsesRule P (.branch l cs)
  | inside {l : String} {cs : List Node} {c : Node} (hc : c ∈ cs) (h : UsesRule P c) :
      UsesRule P (.branch l cs)

def Forest.UsesRule (P : String → List String → Prop) (trees : Forest) : Prop :=
  ∃ tree ∈ trees, tree.UsesRule P

/-- Every list of labels that holds these ones consists of them. -/
def Forest.OnlyWhole (q : List String) (trees : Forest) : Prop :=
  ¬trees.UsesRule fun _ ls => q <:+: ls ∧ ls ≠ q

/-- Terminals hold no children. -/
inductive Node.Proper : Node → Prop
  | terminal (l : String) : Proper (.terminal l)
  | branch {l : String} {cs : List Node} (h : ∀ c ∈ cs, Proper c) : Proper (.branch l cs)

lemma Node.Proper.flat (l : String) (words : List String) :
    (Node.branch l (words.map .terminal)).Proper :=
  .branch fun _ hc => by
    obtain ⟨word, -, rfl⟩ := List.mem_map.mp hc
    exact .terminal word

section

variable {P Q : String → List String → Prop}

namespace Node

lemma usesRule_branch_iff {l : String} {cs : List Node} :
    (branch l cs).UsesRule P ↔ P l (Forest.labels cs) ∨ Forest.UsesRule P cs := by
  constructor
  · intro h
    cases h with
    | here h => exact .inl h
    | inside hc h => exact .inr ⟨_, hc, h⟩
  · rintro (h | ⟨c, hc, h⟩)
    · exact .here h
    · exact .inside hc h

lemma not_usesRule_terminal {l : String} {cs : List Node} :
    ¬UsesRule P ⟨l, true, cs⟩ := nofun

lemma UsesRule.mono {n : Node} (h : n.UsesRule P) (hPQ : ∀ l ls, P l ls → Q l ls) :
    n.UsesRule Q := by
  induction h with
  | here h => exact .here (hPQ _ _ h)
  | inside hc _ ih => exact .inside hc ih

lemma UsesRule.exists {n : Node} (h : n.UsesRule P) : ∃ l ls, P l ls := by
  induction h with
  | here h => exact ⟨_, _, h⟩
  | inside _ _ ih => exact ih

lemma usesRule_or_iff {n : Node} :
    (n.UsesRule fun l ls => P l ls ∨ Q l ls) ↔ n.UsesRule P ∨ n.UsesRule Q := by
  constructor
  · intro h
    induction h with
    | here h => exact h.imp .here .here
    | inside hc _ ih => exact ih.imp (.inside hc) (.inside hc)
  · rintro (h | h)
    · exact h.mono fun _ _ => .inl
    · exact h.mono fun _ _ => .inr

end Node

namespace Forest

variable {trees : Forest}

lemma UsesRule.mono (h : trees.UsesRule P) (hPQ : ∀ l ls, P l ls → Q l ls) :
    trees.UsesRule Q := by
  obtain ⟨tree, ht, h⟩ := h
  exact ⟨tree, ht, h.mono hPQ⟩

lemma UsesRule.exists (h : trees.UsesRule P) : ∃ l ls, P l ls := by
  obtain ⟨tree, -, h⟩ := h
  exact h.exists

lemma usesRule_congr (h : ∀ l ls, P l ls ↔ Q l ls) : trees.UsesRule P ↔ trees.UsesRule Q :=
  ⟨fun hP => hP.mono fun l ls => (h l ls).mp, fun hQ => hQ.mono fun l ls => (h l ls).mpr⟩

lemma usesRule_or_iff :
    (trees.UsesRule fun l ls => P l ls ∨ Q l ls) ↔ trees.UsesRule P ∨ trees.UsesRule Q := by
  simp only [UsesRule, Node.usesRule_or_iff, and_or_left, exists_or]

@[simp] lemma not_usesRule_nil : ¬UsesRule P [] := by simp [UsesRule]

lemma usesRule_cons {n : Node} {ns : List Node} :
    UsesRule P (n :: ns) ↔ n.UsesRule P ∨ UsesRule P ns := by simp [UsesRule]

lemma usesRule_map {f : Node → Node} {ns : List Node} :
    UsesRule P (ns.map f) ↔ ∃ n ∈ ns, (f n).UsesRule P := by simp [UsesRule]

lemma usesRule_append {as bs : List Node} :
    UsesRule P (as ++ bs) ↔ UsesRule P as ∨ UsesRule P bs := by
  simp [UsesRule, or_and_right, exists_or]

end Forest

end

namespace Grouping

variable {g : Grouping} {P : String → List String → Prop}

/-- The rules that become rules of a certain kind with the application of a grouping, by themselves
or through a run among the labels. -/
def RuleBefore (g : Grouping) (P : String → List String → Prop) (l : String) (ls : List String) :
    Prop :=
  P l (g.sweepLabels ls) ∨ (g.pattern <:+: ls ∧ P g.id g.pattern)

lemma exists_of_mem_applyNodes {ns out : List Node} (h : g.applyNodes ns = some out) {n' : Node}
    (hn : n' ∈ out) : ∃ n ∈ ns, g.applyNode n = some n' := by
  have hall := applyNodes_eq_some_iff.mp h
  clear h
  induction hall with
  | nil => exact absurd hn List.not_mem_nil
  | cons hc _ ih =>
    rcases List.mem_cons.mp hn with rfl | hn
    · exact ⟨_, List.mem_cons_self, hc⟩
    · obtain ⟨n, hmem, happly⟩ := ih hn
      exact ⟨n, List.mem_cons_of_mem _ hmem, happly⟩

/-- Terminals hold no children after an application if they held none before. -/
theorem proper_applyNode {n n' : Node} (hn : n.Proper) (h : g.applyNode n = some n') :
    n'.Proper := by
  induction hn generalizing n' with
  | terminal l =>
    rw [applyNode_terminal] at h
    exact Option.some.inj h ▸ .terminal l
  | @branch l cs _ ih =>
    obtain ⟨inner, settled, hinner, hsettled, rfl⟩ := applyNode_branch_eq_some.mp h
    refine .branch (settle_induct (P := fun ns => ∀ n ∈ ns, n.Proper) ?_ ?_ hsettled)
    · intro ns out hns hc
      obtain ⟨before, run, after, rfl, -, rfl⟩ := collapseFirst?_eq_some hc
      simp only [List.forall_mem_append, List.forall_mem_cons] at hns ⊢
      exact ⟨hns.1.1, .branch hns.1.2, hns.2⟩
    · intro n hn
      obtain ⟨c, hc, hcn⟩ := exists_of_mem_applyNodes hinner hn
      exact ih c hc hcn

lemma proper_apply {trees out : Forest} (ht : ∀ tree ∈ trees, tree.Proper)
    (h : trees.apply g = .ok out) : ∀ tree ∈ out, tree.Proper := by
  intro n hn
  obtain ⟨tree, hmem, htree⟩ := exists_of_mem_applyNodes (Forest.apply_eq_ok_iff.mp h).2 hn
  exact proper_applyNode (ht tree hmem) htree

section

variable (hne : g.pattern ≠ [])

include hne in
/-- A pass over nodes keeps their rules, and each run that it takes is a new one. -/
theorem usesRule_sweep_iff (ns : List Node) :
    Forest.UsesRule P (g.sweep ns) ↔
      Forest.UsesRule P ns ∨ (g.pattern <:+: Forest.labels ns ∧ P g.id g.pattern) := by
  rw [sweep, Forest.labels]
  induction ns using pass_induct Node.label hne with
  | nil => simpa using fun h => absurd h hne
  | take run rest hrun ih =>
    rw [pass_take hne rest hrun, Forest.usesRule_cons, ih, node, Node.usesRule_branch_iff,
      Forest.labels, hrun, Forest.usesRule_append, List.map_append, hrun]
    have hwithin : g.pattern <:+: g.pattern ++ rest.map Node.label := List.infix_append' [] _ _
    tauto
  | skip n ns hno ih =>
    rw [List.map_cons] at hno
    rw [pass_skip hno, Forest.usesRule_cons, ih, Forest.usesRule_cons, List.map_cons,
      List.infix_cons_iff, or_iff_right hno, or_assoc]

variable (hid : g.id ∉ g.pattern)

include hne hid

omit hid in
/-- The rules of a tree after one pass through each child list. -/
theorem usesRule_sweepTree_iff (n : Node) :
    (g.sweepTree n).UsesRule P ↔ n.UsesRule (g.RuleBefore P) := by
  induction n using Node.induct with
  | step l t cs ih =>
    cases t with
    | true =>
      rw [sweepTree_terminal]
      exact iff_of_false Node.not_usesRule_terminal Node.not_usesRule_terminal
    | false =>
      have hlabels : Forest.labels (cs.map g.sweepTree) = Forest.labels cs := by
        simp [Forest.labels, Function.comp_def]
      have hchildren : Forest.UsesRule P (cs.map g.sweepTree) ↔
          Forest.UsesRule (g.RuleBefore P) cs :=
        Forest.usesRule_map.trans (exists_congr fun c => and_congr_right fun hc => ih c hc)
      change (g.sweepTree (.branch l cs)).UsesRule P ↔ _
      rw [sweepTree_branch, Node.usesRule_branch_iff, Forest.labels, map_label_sweep hne,
        usesRule_sweep_iff hne, hchildren, ← Forest.labels, hlabels]
      refine Iff.trans ?_ Node.usesRule_branch_iff.symm
      rw [RuleBefore]
      tauto

/-- The rules of a forest after the application of a grouping. -/
theorem usesRule_apply_iff {trees out : Forest} (h : trees.apply g = .ok out) :
    out.UsesRule P ↔ trees.UsesRule (g.RuleBefore P) := by
  obtain rfl := Except.ok.inj ((apply_eq_map_sweepTree hne hid trees).symm.trans h)
  exact Forest.usesRule_map.trans
    (exists_congr fun tree => and_congr_right fun _ => usesRule_sweepTree_iff hne tree)

/-- After the application of a grouping a label is that of a nonterminal if it was one before, or
if it is the new name and the pattern occurred. -/
theorem usesRule_label_iff {trees out : Forest} (h : trees.apply g = .ok out) {x : String} :
    (out.UsesRule fun l _ => l = x) ↔ (trees.UsesRule fun l _ => l = x) ∨
      (trees.UsesRule fun _ ls => g.pattern <:+: ls) ∧ g.id = x := by
  rw [usesRule_apply_iff hne hid h]
  unfold RuleBefore
  rw [Forest.usesRule_or_iff]
  by_cases hx : g.id = x
  · simp only [hx, and_true]
  · have hnone : ¬trees.UsesRule fun _ _ => False := fun huses => huses.exists.elim nofun
    simp only [hx, and_false, hnone]

/-- A grouping with a new name can be applied to every forest. -/
theorem exists_apply (trees : Forest) : ∃ out, trees.apply g = .ok out :=
  ⟨_, apply_eq_map_sweepTree hne hid trees⟩

/-- After the application of a grouping its pattern stands in no longer list of labels. -/
theorem onlyWhole_pattern {trees out : Forest} (h : trees.apply g = .ok out) :
    out.OnlyWhole g.pattern := by
  rw [Forest.OnlyWhole, usesRule_apply_iff hne hid h]
  intro huses
  obtain ⟨l, ls, hbefore⟩ := huses.exists
  rcases hbefore with ⟨hwithin, -⟩ | ⟨-, -, hpattern⟩
  · exact not_infix_sweepLabels hne hid hwithin
  · exact hpattern rfl

/-- Labels that stand in no longer list stay so when a grouping with another name is applied. -/
theorem onlyWhole_of_apply {trees out : Forest} {q : List String} (hqid : g.id ∉ q) (hq : q ≠ [])
    (h : trees.apply g = .ok out) (htrees : trees.OnlyWhole q) : out.OnlyWhole q := by
  rw [Forest.OnlyWhole, usesRule_apply_iff hne hid h]
  refine fun huses => htrees (huses.mono fun l ls hbefore => ?_)
  rcases hbefore with ⟨hwithin, hlonger⟩ | ⟨hpattern, hwithin, hlonger⟩
  · refine ⟨infix_of_infix_sweepLabels hne hqid hq hwithin, ?_⟩
    rintro rfl
    exact hlonger (hwithin.eq_of_length_le (length_sweepLabels_le hne)).symm
  · refine ⟨hwithin.trans hpattern, ?_⟩
    rintro rfl
    exact hlonger (hpattern.eq_of_length_le hwithin.length_le)

end

end Grouping
end GrammarInduction
