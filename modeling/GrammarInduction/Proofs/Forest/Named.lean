import Mathlib.Logic.Function.Basic
import GrammarInduction.Candidate.Basic
import GrammarInduction.Forest.Seed
import GrammarInduction.Proofs.Forest.Collapse
import GrammarInduction.Proofs.Forest.Text

/-!
Forests in which every label below a root is a name that stands for the text of its node. Nodes of
equal labels have equal texts there, and the application of a grouping keeps this up if the new
name stands for the text of the pattern.
-/
namespace GrammarInduction

/-- The texts that names stand for, by the numbers of the names. -/
abbrev Glossary := Nat → Option String

namespace Glossary

def Within (m m' : Glossary) : Prop := ∀ i text, m i = some text → m' i = some text

def Below (m : Glossary) (bound : Nat) : Prop := ∀ i text, m i = some text → i < bound

def add (m : Glossary) (k : Nat) (text : String) : Glossary := Function.update m k (some text)

variable {m m' m'' : Glossary} {k : Nat} {text : String}

lemma Within.refl (m : Glossary) : m.Within m := fun _ _ h => h

lemma Within.trans (h : m.Within m') (h' : m'.Within m'') : m.Within m'' :=
  fun i text hi => h' i text (h i text hi)

lemma add_self : m.add k text k = some text := Function.update_self k _ m

lemma add_of_ne {i : Nat} (h : i ≠ k) : m.add k text i = m i := Function.update_of_ne h _ m

lemma within_add (h : m k = none) (text : String) : m.Within (m.add k text) := by
  intro i t hi
  have hne : i ≠ k := by
    rintro rfl
    rw [h] at hi
    cases hi
  rw [add_of_ne hne, hi]

lemma Below.eq_none {bound : Nat} (h : m.Below bound) (hk : bound ≤ k) : m k = none := by
  rw [Option.eq_none_iff_forall_ne_some]
  intro t ht
  exact absurd (h k t ht) (Nat.not_lt.mpr hk)

lemma Below.add {bound bound' : Nat} (h : m.Below bound) (hb : bound ≤ bound')
    (hk : k < bound') : (m.add k text).Below bound' := by
  intro i t hi
  by_cases hik : i = k
  · exact hik ▸ hk
  · rw [add_of_ne hik] at hi
    exact Nat.lt_of_lt_of_le (h i t hi) hb

lemma Below.mono {bound bound' : Nat} (h : m.Below bound) (hb : bound ≤ bound') :
    m.Below bound' := fun i t hi => Nat.lt_of_lt_of_le (h i t hi) hb

end Glossary

/-- A node with a name for the text below it: a class node over a token, or a node over nodes of
this kind. -/
inductive Node.Named (name : Nat → String) (m : Glossary) : Node → Prop
  | token {i : Nat} {word : String} (hm : m i = some word) :
      Node.Named name m (.branch (name i) [.terminal word])
  | group {i : Nat} {cs : List Node} (hcs : ∀ c ∈ cs, Node.Named name m c)
      (hm : m i = some (String.join (cs.map Node.text))) :
      Node.Named name m (.branch (name i) cs)

/-- A forest of roots over named nodes. -/
def Forest.Named (name : Nat → String) (m : Glossary) (trees : Forest) : Prop :=
  ∀ tree ∈ trees, ∃ cs, tree = .branch rootLabel cs ∧ ∀ c ∈ cs, c.Named name m

namespace Node.Named

variable {name : Nat → String} {m m' : Glossary} {n : Node}

/-- The label of a named node stands for its text. -/
theorem exists_number (h : n.Named name m) :
    ∃ i, n.label = name i ∧ m i = some n.text ∧ n.isTerminal = false := by
  cases h with
  | @token i word hm => exact ⟨i, rfl, by rw [text_branch]; simpa using hm, rfl⟩
  | @group i cs hcs hm => exact ⟨i, rfl, by rw [text_branch, hm], rfl⟩

lemma mono (h : n.Named name m) (hm : m.Within m') : n.Named name m' := by
  induction h with
  | token hi => exact .token (hm _ _ hi)
  | group _ hi ih => exact .group ih (hm _ _ hi)

lemma text_eq (hname : Function.Injective name) {a b : Node} (ha : a.Named name m)
    (hb : b.Named name m) (h : a.label = b.label) : a.text = b.text := by
  obtain ⟨i, hai, hmi, -⟩ := ha.exists_number
  obtain ⟨j, hbj, hmj, -⟩ := hb.exists_number
  obtain rfl : i = j := hname (by rw [← hai, ← hbj, h])
  exact Option.some.inj (hmi.symm.trans hmj)

lemma texts_eq (hname : Function.Injective name) {as bs : List Node}
    (ha : ∀ a ∈ as, a.Named name m) (hb : ∀ b ∈ bs, b.Named name m)
    (h : as.map Node.label = bs.map Node.label) : as.map Node.text = bs.map Node.text := by
  induction as generalizing bs with
  | nil =>
    obtain rfl : bs = [] := by simpa using h.symm
    rfl
  | cons a as ih =>
    obtain ⟨b, bs, rfl⟩ : ∃ b bs', bs = b :: bs' := by
      cases bs with
      | nil => simp at h
      | cons b bs => exact ⟨b, bs, rfl⟩
    rw [List.forall_mem_cons] at ha hb
    rw [List.map_cons, List.map_cons, List.cons.injEq] at h
    rw [List.map_cons, List.map_cons, text_eq hname ha.1 hb.1 h.1, ih ha.2 hb.2 h.2]

end Node.Named

/-- A grouping fits a glossary if its pattern has two labels or more, which are those of named
nodes, and its new name stands for the text of these. -/
structure Grouping.Fits (name : Nat → String) (m : Glossary) (g : Grouping) : Prop where
  two_le : 2 ≤ g.pattern.length
  meaning : ∃ (es : List Node) (k : Nat), (∀ e ∈ es, e.Named name m) ∧ g.pattern = es.map Node.label ∧
    g.id = name k ∧ m k = some (String.join (es.map Node.text))

namespace Grouping.Fits

variable {name : Nat → String} {m : Glossary} {g : Grouping}

/-- A collapse leads from named nodes to named nodes with the same text. -/
theorem collapse (hname : Function.Injective name) (hg : g.Fits name m) {ns out : List Node}
    (hns : ∀ n ∈ ns, n.Named name m) (h : g.collapseFirst? ns = some out) :
    (∀ n ∈ out, n.Named name m) ∧
      String.join (out.map Node.text) = String.join (ns.map Node.text) := by
  obtain ⟨before, run, after, rfl, hrun, rfl⟩ := collapseFirst?_eq_some h
  obtain ⟨es, k, hes, hpat, hid, hk⟩ := hg.meaning
  have hmem : ∀ n ∈ run, n.Named name m := fun n hn => hns n (by simp [hn])
  have htext : run.map Node.text = es.map Node.text :=
    Node.Named.texts_eq hname hmem hes (hrun.trans hpat)
  have hnode : (g.node run).Named name m := by
    rw [Grouping.node, hid]
    exact .group hmem (by rw [hk, htext])
  refine ⟨?_, ?_⟩
  · intro n hn
    rcases List.mem_append.mp hn with hn | hn
    · exact hns n (by simp [hn])
    · rcases List.mem_cons.mp hn with rfl | hn
      · exact hnode
      · exact hns n (by simp [hn])
  · simp [Grouping.node, Node.text_branch, String.join_append, String.join_cons]

lemma settle (hname : Function.Injective name) (hg : g.Fits name m) {ns out : List Node}
    (hns : ∀ n ∈ ns, n.Named name m) (h : g.settle ns = some out) :
    (∀ n ∈ out, n.Named name m) ∧
      String.join (out.map Node.text) = String.join (ns.map Node.text) := by
  refine settle_induct (P := fun out => (∀ n ∈ out, n.Named name m) ∧
    String.join (out.map Node.text) = String.join (ns.map Node.text)) ?_ ⟨hns, rfl⟩ h
  rintro ms out ⟨hms, htext⟩ hout
  obtain ⟨hnamed, heq⟩ := hg.collapse hname hms hout
  exact ⟨hnamed, heq.trans htext⟩

lemma applyNode_token (hg : g.Fits name m) {l word : String} {n : Node}
    (h : g.applyNode (.branch l [.terminal word]) = some n) : n = .branch l [.terminal word] := by
  obtain ⟨inner, settled, hinner, hsettled, rfl⟩ := applyNode_branch_eq_some.mp h
  obtain rfl : inner = [.terminal word] := by
    simpa [applyNodes, eq_comm] using hinner
  have hnone : g.collapseFirst? [.terminal word] = none :=
    collapseFirst?_eq_none_of_length_lt hg.two_le
  rw [settle_of_collapseFirst?_eq_none hnone] at hsettled
  rw [Option.some.inj hsettled]

/-- What is kept of each child is kept of the children. -/
theorem children (hname : Function.Injective name) (hg : g.Fits name m) {l : String}
    {cs : List Node} {n' : Node}
    (hcs : ∀ c ∈ cs, ∀ c', g.applyNode c = some c' → c'.Named name m ∧ c'.text = c.text)
    (h : g.applyNode (.branch l cs) = some n') :
    ∃ settled, n' = .branch l settled ∧ (∀ c ∈ settled, c.Named name m) ∧
      String.join (settled.map Node.text) = String.join (cs.map Node.text) := by
  obtain ⟨inner, settled, hinner, hsettled, rfl⟩ := applyNode_branch_eq_some.mp h
  have hkept : (∀ c ∈ inner, c.Named name m) ∧ inner.map Node.text = cs.map Node.text := by
    have hall := applyNodes_eq_some_iff.mp hinner
    clear h hinner hsettled
    induction hall with
    | nil => simp
    | cons hc _ ih =>
      rw [List.forall_mem_cons] at hcs
      obtain ⟨hnamed, htext⟩ := hcs.1 _ hc
      obtain ⟨hrest, htexts⟩ := ih hcs.2
      exact ⟨List.forall_mem_cons.mpr ⟨hnamed, hrest⟩, by
        rw [List.map_cons, List.map_cons, htext, htexts]⟩
  obtain ⟨hnamed, htext⟩ := hg.settle hname hkept.1 hsettled
  exact ⟨settled, rfl, hnamed, by rw [htext, hkept.2]⟩

/-- A named node stays one and keeps its text. -/
theorem applyNode (hname : Function.Injective name) (hg : g.Fits name m) {n n' : Node}
    (hn : n.Named name m) (h : g.applyNode n = some n') :
    n'.Named name m ∧ n'.text = n.text := by
  induction hn generalizing n' with
  | token hm =>
    obtain rfl := hg.applyNode_token h
    exact ⟨.token hm, rfl⟩
  | @group i cs hcs hm ih =>
    obtain ⟨settled, rfl, hnamed, htext⟩ := hg.children hname (fun c hc c' h' => ih c hc h') h
    refine ⟨.group hnamed (by rw [hm, htext]), ?_⟩
    rw [Node.text_branch, Node.text_branch, htext]

/-- A forest stays named when a grouping that fits is applied to it. -/
theorem apply (hname : Function.Injective name) (hg : g.Fits name m) {trees out : Forest}
    (ht : trees.Named name m) (h : trees.apply g = .ok out) : out.Named name m := by
  have hall := applyNodes_eq_some_iff.mp (Forest.apply_eq_ok_iff.mp h).2
  clear h
  induction hall with
  | nil => exact fun n hn => absurd hn List.not_mem_nil
  | cons hc _ ih =>
    obtain ⟨hroot, hrest⟩ := List.forall_mem_cons.mp ht
    obtain ⟨cs, rfl, hcs⟩ := hroot
    obtain ⟨settled, rfl, hnamed, -⟩ := hg.children hname
      (fun c hc c' h' => hg.applyNode hname (hcs c hc) h') hc
    exact List.forall_mem_cons.mpr ⟨⟨settled, rfl, hnamed⟩, ih hrest⟩

end Grouping.Fits
end GrammarInduction
