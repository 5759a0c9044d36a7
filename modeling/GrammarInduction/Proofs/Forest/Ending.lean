import GrammarInduction.Proofs.Forest.Leaves
import GrammarInduction.Proofs.Forest.Nodes
import GrammarInduction.Proofs.Forest.Sweep

/-!
When the application of a grouping ends. The loop over a child list is given without any bound on
its collapses, and an application as the relation in which every loop has come to an end; the only
thing that keeps a loop going is a label that is replaced by itself.
-/
namespace GrammarInduction
namespace Grouping

open Node

variable {g : Grouping}

/-- The loop over a child list: the leftmost run is collapsed for as long as there is one. -/
inductive SettlesTo (g : Grouping) : List Node → List Node → Prop
  | done {ns : List Node} (h : g.collapseFirst? ns = none) : SettlesTo g ns ns
  | again {ns next out : List Node} (h : g.collapseFirst? ns = some next)
      (rest : SettlesTo g next out) : SettlesTo g ns out

/-- The application to a tree: terminals stay, and where the children of a nonterminal have been
changed, the loop goes over them until it ends. -/
inductive RewritesTo (g : Grouping) : Node → Node → Prop
  | terminal (l : String) (cs : List Node) : RewritesTo g ⟨l, true, cs⟩ ⟨l, true, cs⟩
  | branch {l : String} {cs inner settled : List Node}
      (children : List.Forall₂ (RewritesTo g) cs inner) (loop : g.SettlesTo inner settled) :
      RewritesTo g ⟨l, false, cs⟩ ⟨l, false, settled⟩

/-- The loop ends where some number of collapses is enough. -/
theorem settlesTo_iff_exists_settleWithin {ns out : List Node} :
    g.SettlesTo ns out ↔ ∃ fuel, g.settleWithin fuel ns = some out := by
  constructor
  · intro h
    induction h with
    | done h => exact ⟨0, settleWithin_of_collapseFirst?_eq_none h 0⟩
    | again h _ ih =>
      obtain ⟨fuel, hfuel⟩ := ih
      exact ⟨fuel + 1, by rw [settleWithin, h]; exact hfuel⟩
  · rintro ⟨fuel, h⟩
    induction fuel generalizing ns with
    | zero =>
      rw [settleWithin] at h
      split at h
      · rename_i hc
        obtain rfl := Option.some.inj h
        exact .done (Option.isNone_iff_eq_none.mp hc)
      · cases h
    | succ fuel ih =>
      rw [settleWithin] at h
      cases hc : g.collapseFirst? ns with
      | none =>
        rw [hc] at h
        obtain rfl := Option.some.inj h
        exact .done hc
      | some next =>
        rw [hc] at h
        exact .again hc (ih h)

lemma label_applyNode {n n' : Node} (h : g.applyNode n = some n') : n'.label = n.label :=
  (sameSample_applyNode h).label_eq

lemma map_label_applyNodes {ns out : List Node} (h : g.applyNodes ns = some out) :
    out.map label = ns.map label := by
  have hall := applyNodes_eq_some_iff.mp h
  clear h
  induction hall with
  | nil => rfl
  | cons hn _ ih => rw [List.map_cons, List.map_cons, label_applyNode hn, ih]

lemma exists_applyNodes_iff {ns : List Node} :
    (∃ out, g.applyNodes ns = some out) ↔ ∀ n ∈ ns, ∃ n', g.applyNode n = some n' := by
  induction ns with
  | nil => simp [applyNodes]
  | cons n ns ih =>
    rw [List.forall_mem_cons, ← ih]
    simp only [applyNodes_eq_some_iff, List.forall₂_cons_left_iff]
    constructor
    · rintro ⟨_, n', out, hn, hns, -⟩
      exact ⟨⟨n', hn⟩, out, hns⟩
    · rintro ⟨⟨n', hn⟩, out, hns⟩
      exact ⟨_, n', out, hn, hns, rfl⟩

section

variable (hne : g.pattern ≠ [])

include hne

lemma settlesTo_iff {ns out : List Node} : g.SettlesTo ns out ↔ g.settle ns = some out := by
  rw [settlesTo_iff_exists_settleWithin]
  exact ⟨fun ⟨_, h⟩ => settle_of_settleWithin hne h, fun h => ⟨_, h⟩⟩

lemma rewritesTo_iff {n n' : Node} : g.RewritesTo n n' ↔ g.applyNode n = some n' := by
  induction n using Node.induct generalizing n' with
  | step l t cs ih =>
    have hchildren : ∀ inner,
        List.Forall₂ g.RewritesTo cs inner ↔ g.applyNodes cs = some inner := by
      intro inner
      have hsame : ∀ c ∈ cs, ∀ c', g.RewritesTo c c' ↔ g.applyNode c = some c' :=
        fun c hc _ => ih c hc
      rw [applyNodes_eq_some_iff]
      constructor
      · intro h
        exact ((List.forall₂_and_left _ _).mpr ⟨hsame, h⟩).imp fun _ _ h => (h.1 _).mp h.2
      · intro h
        exact ((List.forall₂_and_left _ _).mpr ⟨hsame, h⟩).imp fun _ _ h => (h.1 _).mpr h.2
    cases t with
    | true =>
      rw [applyNode, Option.some.injEq]
      constructor
      · rintro ⟨⟩
        rfl
      · rintro rfl
        exact .terminal l cs
    | false =>
      rw [← Node.branch, applyNode_branch_eq_some]
      constructor
      · intro h
        cases h with
        | branch children loop =>
          exact ⟨_, _, (hchildren _).mp children, (settlesTo_iff hne).mp loop, rfl⟩
      · rintro ⟨inner, settled, hinner, hsettled, rfl⟩
        exact .branch ((hchildren _).mpr hinner) ((settlesTo_iff hne).mpr hsettled)

lemma forall₂_rewritesTo_iff {ns out : List Node} :
    List.Forall₂ g.RewritesTo ns out ↔ g.applyNodes ns = some out := by
  rw [applyNodes_eq_some_iff]
  exact ⟨fun h => h.imp fun _ _ => (rewritesTo_iff hne).mp,
    fun h => h.imp fun _ _ => (rewritesTo_iff hne).mpr⟩

lemma exists_settle_iff {ns : List Node} :
    (∃ out, g.settle ns = some out) ↔ ¬(g.pattern = [g.id] ∧ g.id ∈ ns.map label) := by
  constructor
  · rintro ⟨out, hout⟩ ⟨hpattern, hmem⟩
    rw [settle, settleWithin_eq_none hpattern hmem] at hout
    cases hout
  · exact exists_settle_of_not hne

/-- A nonterminal can be changed if its children can and its loop ends. -/
theorem exists_applyNode_branch_iff {l : String} {cs : List Node} :
    (∃ n', g.applyNode (.branch l cs) = some n') ↔
      (∀ c ∈ cs, ∃ c', g.applyNode c = some c') ∧
        ¬(g.pattern = [g.id] ∧ g.id ∈ cs.map label) := by
  rw [← exists_applyNodes_iff]
  simp only [applyNode_branch_eq_some]
  constructor
  · rintro ⟨_, inner, settled, hinner, hsettled, -⟩
    rw [← map_label_applyNodes hinner, ← exists_settle_iff hne]
    exact ⟨⟨inner, hinner⟩, settled, hsettled⟩
  · rintro ⟨⟨inner, hinner⟩, hloop⟩
    rw [← map_label_applyNodes hinner, ← exists_settle_iff hne] at hloop
    obtain ⟨settled, hsettled⟩ := hloop
    exact ⟨_, inner, settled, hinner, hsettled, rfl⟩

/-- A tree can be changed unless a label is replaced by itself somewhere below nonterminals. -/
theorem exists_applyNode_iff {n : Node} :
    (∃ n', g.applyNode n = some n') ↔
      ¬(g.pattern = [g.id] ∧ ∃ m ∈ n.reached, m.isTerminal = false ∧
        g.id ∈ m.children.map label) := by
  induction n using Node.induct with
  | step l t cs ih =>
    cases t with
    | true =>
      rw [applyNode, reached]
      simp
    | false =>
      rw [← Node.branch, exists_applyNode_branch_iff hne, reached_branch]
      constructor
      · rintro ⟨hcs, hloop⟩ ⟨hpattern, m, hm, hmt, hmem⟩
        rcases List.mem_cons.mp hm with rfl | hm
        · exact hloop ⟨hpattern, hmem⟩
        · obtain ⟨c, hc, hmc⟩ := mem_reachedOf_iff.mp hm
          exact (ih c hc).mp (hcs c hc) ⟨hpattern, m, hmc, hmt, hmem⟩
      · intro h
        refine ⟨fun c hc => (ih c hc).mpr ?_, ?_⟩
        · rintro ⟨hpattern, m, hm, hchild⟩
          have hbelow : m ∈ reachedOf cs := mem_reachedOf_iff.mpr ⟨c, hc, hm⟩
          exact h ⟨hpattern, m, List.mem_cons_of_mem _ hbelow, hchild⟩
        · rintro ⟨hpattern, hmem⟩
          exact h ⟨hpattern, branch l cs, List.mem_cons_self, rfl, hmem⟩

end

/-- The application of a grouping is where all loops lead, so it succeeds just when they all end;
and they do unless the pattern is the new name alone and some nonterminal, reached through
nonterminals, has a child with it. -/
theorem application_ends_iff (hne : g.pattern ≠ []) (trees : Forest) :
    (∀ out, trees.apply g = .ok out ↔ List.Forall₂ g.RewritesTo trees out) ∧
      ((∃ out, List.Forall₂ g.RewritesTo trees out) ↔
        ¬(g.pattern = [g.id] ∧ ∃ n ∈ reachedOf trees, n.isTerminal = false ∧
          ∃ c ∈ n.children, c.label = g.id)) := by
  refine ⟨fun out => ?_, ?_⟩
  · rw [Forest.apply_eq_ok_iff, forall₂_rewritesTo_iff hne]
    exact and_iff_right hne
  · simp only [forall₂_rewritesTo_iff hne, exists_applyNodes_iff, exists_applyNode_iff hne,
      List.mem_map]
    constructor
    · rintro h ⟨hpattern, n, hn, hchild⟩
      obtain ⟨tree, ht, hnt⟩ := mem_reachedOf_iff.mp hn
      exact h tree ht ⟨hpattern, n, hnt, hchild⟩
    · rintro h tree ht ⟨hpattern, n, hn, hchild⟩
      exact h ⟨hpattern, n, mem_reachedOf_iff.mpr ⟨tree, ht, hn⟩, hchild⟩

def selfNamed : Grouping := ⟨["a"], "a"⟩

/-- A forest with that label at a root and below a terminal only. -/
def shelteredForest : Forest := [.branch "a" [⟨"b", true, [.terminal "a"]⟩]]

/-- A forest with it below a nonterminal. -/
def exposedForest : Forest := [.branch "START" [.branch "b" [.terminal "c", .terminal "a"]]]

theorem application_ends_iff_selfNamed :
    selfNamed.pattern ≠ [] ∧
      List.Forall₂ selfNamed.RewritesTo shelteredForest shelteredForest ∧
      (∃ out, List.Forall₂ selfNamed.RewritesTo shelteredForest out) ∧
      ¬∃ out, List.Forall₂ selfNamed.RewritesTo exposedForest out := by
  have hne : selfNamed.pattern ≠ [] := by decide
  obtain ⟨hsheltered, hends⟩ := application_ends_iff hne shelteredForest
  obtain ⟨-, hexposed⟩ := application_ends_iff hne exposedForest
  refine ⟨hne, (hsheltered _).mp (by rfl), hends.mpr (by decide), fun hout => ?_⟩
  exact hexposed.mp hout (by decide)

end Grouping
end GrammarInduction
