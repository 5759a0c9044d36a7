import Mathlib.Data.List.Forall2
import GrammarInduction.Forest.Grouping

/-!
What the application of a grouping does to lists of children: each collapse puts a node in place
of one run with the labels of the pattern, and a list has settled after some number of these.
-/
namespace GrammarInduction
namespace Grouping

variable {g : Grouping}

/-- A collapse replaces a run with the labels of the pattern by a node over it. -/
theorem collapseFirst?_eq_some {ns out : List Node} (h : g.collapseFirst? ns = some out) :
    ∃ before run after, ns = before ++ run ++ after ∧ run.map Node.label = g.pattern ∧
      out = before ++ g.node run :: after := by
  induction ns generalizing out with
  | nil => simp [collapseFirst?] at h
  | cons n ns ih =>
    rw [collapseFirst?] at h
    split at h
    · rename_i hm
      obtain rfl := Option.some.inj h
      refine ⟨[], (n :: ns).take g.pattern.length, (n :: ns).drop g.pattern.length, ?_, ?_, rfl⟩
      · rw [List.nil_append, List.take_append_drop]
      · rw [List.map_take]
        exact (List.prefix_iff_eq_take.mp (startsWith_iff.mp hm)).symm
    · obtain ⟨rest, hrest, rfl⟩ := Option.map_eq_some_iff.mp h
      obtain ⟨before, run, after, rfl, hrun, rfl⟩ := ih hrest
      exact ⟨n :: before, run, after, rfl, hrun, rfl⟩

lemma collapseFirst?_eq_none_of_length_lt {ns : List Node} (h : ns.length < g.pattern.length) :
    g.collapseFirst? ns = none := by
  rw [Option.eq_none_iff_forall_ne_some]
  intro out hout
  obtain ⟨before, run, after, rfl, hrun, -⟩ := collapseFirst?_eq_some hout
  rw [← hrun] at h
  simp only [List.length_append, List.length_map] at h
  omega

/-- What a collapse keeps holds of a list that has settled within some number of collapses. -/
theorem settleWithin_induct {P : List Node → Prop}
    (step : ∀ ns out, P ns → g.collapseFirst? ns = some out → P out) {fuel : Nat}
    {ns out : List Node} (hns : P ns) (h : g.settleWithin fuel ns = some out) : P out := by
  induction fuel generalizing ns with
  | zero =>
    rw [settleWithin] at h
    split at h
    · exact Option.some.inj h ▸ hns
    · cases h
  | succ fuel ih =>
    rw [settleWithin] at h
    cases hc : g.collapseFirst? ns with
    | none =>
      rw [hc] at h
      exact Option.some.inj h ▸ hns
    | some next =>
      rw [hc] at h
      exact ih (step ns next hns hc) h

/-- What a collapse keeps holds when a list has settled. -/
theorem settle_induct {P : List Node → Prop}
    (step : ∀ ns out, P ns → g.collapseFirst? ns = some out → P out) {ns out : List Node}
    (hns : P ns) (h : g.settle ns = some out) : P out :=
  settleWithin_induct step hns h

lemma settleWithin_of_collapseFirst?_eq_none {ns : List Node} (h : g.collapseFirst? ns = none)
    (fuel : Nat) : g.settleWithin fuel ns = some ns := by
  cases fuel <;> simp [settleWithin, h]

lemma settle_of_collapseFirst?_eq_none {ns : List Node} (h : g.collapseFirst? ns = none) :
    g.settle ns = some ns := settleWithin_of_collapseFirst?_eq_none h _

@[simp] lemma applyNode_terminal (l : String) :
    g.applyNode (.terminal l) = some (.terminal l) := by
  rw [Node.terminal, applyNode]

/-- A nonterminal keeps its label; its children are changed first, then they settle. -/
theorem applyNode_branch_eq_some {l : String} {cs : List Node} {n : Node} :
    g.applyNode (.branch l cs) = some n ↔
      ∃ inner settled, g.applyNodes cs = some inner ∧ g.settle inner = some settled ∧
        n = .branch l settled := by
  simp only [Node.branch, applyNode, Option.bind_eq_bind, Option.bind_eq_some_iff, Option.pure_def,
    Option.some.injEq]
  constructor
  · rintro ⟨inner, hinner, settled, hsettled, rfl⟩
    exact ⟨inner, settled, hinner, hsettled, rfl⟩
  · rintro ⟨inner, settled, hinner, hsettled, rfl⟩
    exact ⟨inner, hinner, settled, hsettled, rfl⟩

lemma applyNodes_eq_some_iff {ns out : List Node} :
    g.applyNodes ns = some out ↔ List.Forall₂ (fun n n' => g.applyNode n = some n') ns out := by
  induction ns generalizing out with
  | nil => simp [applyNodes, eq_comm]
  | cons n ns ih =>
    simp only [applyNodes, Option.bind_eq_bind, Option.bind_eq_some_iff, Option.pure_def,
      Option.some.injEq, List.forall₂_cons_left_iff]
    constructor
    · rintro ⟨n', hn, ns', hns, rfl⟩
      exact ⟨n', ns', hn, ih.mp hns, rfl⟩
    · rintro ⟨n', ns', hn, hns, rfl⟩
      exact ⟨n', hn, ns', ih.mpr hns, rfl⟩

/-- A list of which a new node has as much as its run is kept when children settle. -/
theorem flatMap_of_settle {β : Type _} {f : Node → List β}
    (hnode : ∀ run, f (g.node run) = run.flatMap f) {ns out : List Node}
    (h : g.settle ns = some out) : out.flatMap f = ns.flatMap f := by
  refine settle_induct (P := fun ms => ms.flatMap f = ns.flatMap f) ?_ rfl h
  intro ms next hms hc
  obtain ⟨before, run, after, rfl, -, rfl⟩ := collapseFirst?_eq_some hc
  rw [← hms, List.flatMap_append, List.flatMap_append, List.flatMap_append, List.flatMap_cons,
    hnode, List.append_assoc]

/-- A list that a nonterminal makes of the lists of its children, and of which a new node has as
much as its run, is the same for a tree after the application. -/
theorem eq_of_applyNode {β : Type _} {f : Node → List β}
    (hnode : ∀ run, f (g.node run) = run.flatMap f)
    (hbranch : ∀ l cs cs', cs'.flatMap f = cs.flatMap f → f (.branch l cs') = f (.branch l cs))
    {n n' : Node} (h : g.applyNode n = some n') : f n' = f n := by
  induction n using Node.induct generalizing n' with
  | step l t cs ih =>
    cases t with
    | true =>
      rw [applyNode] at h
      rw [Option.some.inj h]
    | false =>
      obtain ⟨inner, settled, hinner, hsettled, rfl⟩ := applyNode_branch_eq_some.mp h
      refine hbranch l cs settled ((flatMap_of_settle hnode hsettled).trans ?_)
      have hall := applyNodes_eq_some_iff.mp hinner
      clear h hinner hsettled
      induction hall with
      | nil => rfl
      | cons hc _ ihs =>
        rw [List.flatMap_cons, List.flatMap_cons, ih _ List.mem_cons_self hc,
          ihs fun c hc _ => ih c (List.mem_cons_of_mem _ hc)]

end Grouping

lemma Forest.apply_eq_ok_iff {trees out : Forest} {g : Grouping} :
    trees.apply g = .ok out ↔ g.pattern ≠ [] ∧ g.applyNodes trees = some out := by
  rw [Forest.apply]
  split
  · simp_all
  · cases h : g.applyNodes trees <;> simp_all

end GrammarInduction
