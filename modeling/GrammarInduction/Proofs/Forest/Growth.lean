import GrammarInduction.Proofs.Forest.Ending
import GrammarInduction.Proofs.Forest.Rules

/-!
What an application adds. Every collapse puts one node with the name of the grouping over nodes that
stay, also where the name was there before or is in the pattern. So an application that ends takes
no node with the name away, and it adds some if the pattern occurs at all.
-/
namespace GrammarInduction
namespace Node

def countOf (id : String) (ns : List Node) : Nat := (nodesOf ns).countP fun n => n.label = id

section

variable {id : String}

lemma countOf_append (as bs : List Node) :
    countOf id (as ++ bs) = countOf id as + countOf id bs := by
  rw [countOf, nodesOf_eq_flatMap, List.flatMap_append, List.countP_append, ← nodesOf_eq_flatMap,
    ← nodesOf_eq_flatMap, countOf, countOf]

lemma countOf_cons (n : Node) (ns : List Node) :
    countOf id (n :: ns) = countOf id [n] + countOf id ns := countOf_append [n] ns

lemma countOf_branch (l : String) (cs : List Node) :
    countOf id [branch l cs] = countOf id cs + if l = id then 1 else 0 := by
  rw [countOf, nodesOf, nodesOf, List.append_nil, nodes_branch, List.countP_cons, label_branch,
    countOf]
  simp

lemma countOf_le_of_forall₂ {ns out : List Node}
    (h : List.Forall₂ (fun n n' => countOf id [n] ≤ countOf id [n']) ns out) :
    countOf id ns ≤ countOf id out := by
  induction h with
  | nil => exact Nat.le_refl _
  | @cons n n' ns out hn _ ih =>
    rw [countOf_cons n, countOf_cons n']
    omega

end

end Node

namespace Grouping

open Node

variable {g : Grouping}

/-- A collapse adds one node with the name. -/
theorem countOf_collapseFirst? {ns out : List Node} (h : g.collapseFirst? ns = some out) :
    countOf g.id out = countOf g.id ns + 1 := by
  obtain ⟨before, run, after, rfl, -, rfl⟩ := collapseFirst?_eq_some h
  rw [countOf_append, countOf_cons, node, countOf_branch, if_pos rfl, countOf_append,
    countOf_append]
  omega

/-- Where a list settles it is left as it is, or there are more nodes with the name. -/
theorem eq_or_countOf_lt_of_settle {ns out : List Node} (h : g.settle ns = some out) :
    out = ns ∨ countOf g.id ns < countOf g.id out := by
  refine settle_induct (P := fun ms => ms = ns ∨ countOf g.id ns < countOf g.id ms) ?_ (.inl rfl) h
  intro ms next hms hc
  have hmore := countOf_collapseFirst? hc
  rcases hms with rfl | hlt
  · exact .inr (by omega)
  · exact .inr (by omega)

lemma countOf_le_of_settle {ns out : List Node} (h : g.settle ns = some out) :
    countOf g.id ns ≤ countOf g.id out := by
  rcases eq_or_countOf_lt_of_settle h with rfl | hlt
  · exact Nat.le_refl _
  · exact hlt.le

/-- An application takes no node with the name away. -/
theorem countOf_le_of_applyNode {n n' : Node} (h : g.applyNode n = some n') :
    countOf g.id [n] ≤ countOf g.id [n'] := by
  induction n using Node.induct generalizing n' with
  | step l t cs ih =>
    cases t with
    | true =>
      rw [applyNode] at h
      exact Option.some.inj h ▸ Nat.le_refl _
    | false =>
      obtain ⟨inner, settled, hinner, hsettled, rfl⟩ := applyNode_branch_eq_some.mp h
      have hmembers : ∀ c ∈ cs, ∀ c', g.applyNode c = some c' →
          countOf g.id [c] ≤ countOf g.id [c'] := fun c hc _ => ih c hc
      have hchildren : countOf g.id cs ≤ countOf g.id inner :=
        countOf_le_of_forall₂ (((List.forall₂_and_left _ _).mpr
          ⟨hmembers, applyNodes_eq_some_iff.mp hinner⟩).imp fun _ _ hc => hc.1 _ hc.2)
      have hloop := countOf_le_of_settle hsettled
      rw [← Node.branch, countOf_branch, countOf_branch]
      omega

lemma countOf_le_of_applyNodes {ns out : List Node} (h : g.applyNodes ns = some out) :
    countOf g.id ns ≤ countOf g.id out :=
  countOf_le_of_forall₂ ((applyNodes_eq_some_iff.mp h).imp fun _ _ => countOf_le_of_applyNode)

/-- What a tree of a list gains, the list gains. -/
theorem countOf_lt_of_applyNodes {ns out : List Node} (h : g.applyNodes ns = some out) {n : Node}
    (hn : n ∈ ns)
    (hlt : ∀ n', g.applyNode n = some n' → countOf g.id [n] < countOf g.id [n']) :
    countOf g.id ns < countOf g.id out := by
  have hall := applyNodes_eq_some_iff.mp h
  clear h
  induction hall with
  | nil => cases hn
  | @cons m m' ns out hm hns ih =>
    rw [countOf_cons m, countOf_cons m']
    rcases List.mem_cons.mp hn with rfl | hn
    · have hgain := hlt m' hm
      have hrest := countOf_le_of_applyNodes (applyNodes_eq_some_iff.mpr hns)
      omega
    · have hkept := countOf_le_of_applyNode hm
      have hrest := ih hn
      omega

variable (hne : g.pattern ≠ [])

include hne

lemma countOf_lt_of_settle {ns out : List Node} (hwithin : g.pattern <:+: ns.map label)
    (h : g.settle ns = some out) : countOf g.id ns < countOf g.id out := by
  rcases eq_or_countOf_lt_of_settle h with rfl | hlt
  · -- A list that has settled holds no run.
    have hnone := (collapseFirst?_eq_none_iff hne).mp (collapseFirst?_of_settleWithin h)
    exact absurd hwithin hnone
  · exact hlt

/-- An application adds nodes with the name to a tree in which the pattern occurs. -/
theorem countOf_lt_of_applyNode {n n' : Node}
    (huses : n.UsesRule fun _ ls => g.pattern <:+: ls) (h : g.applyNode n = some n') :
    countOf g.id [n] < countOf g.id [n'] := by
  induction huses generalizing n' with
  | @here l cs hwithin =>
    obtain ⟨inner, settled, hinner, hsettled, rfl⟩ := applyNode_branch_eq_some.mp h
    have hchildren := countOf_le_of_applyNodes hinner
    have hloop : countOf g.id inner < countOf g.id settled :=
      countOf_lt_of_settle hne ((map_label_applyNodes hinner).symm ▸ hwithin) hsettled
    rw [countOf_branch, countOf_branch]
    omega
  | @inside l cs c hc _ ih =>
    obtain ⟨inner, settled, hinner, hsettled, rfl⟩ := applyNode_branch_eq_some.mp h
    have hchildren := countOf_lt_of_applyNodes hinner hc fun c' => ih
    have hloop := countOf_le_of_settle hsettled
    rw [countOf_branch, countOf_branch]
    omega

/-- A grouping whose pattern occurs can be applied unless it replaces a label by itself, and adds
nodes with its name. -/
theorem exists_apply_of_usesRule {trees : Forest} (hself : g.pattern ≠ [g.id])
    (huses : trees.UsesRule fun _ ls => g.pattern <:+: ls) :
    ∃ out, trees.apply g = .ok out ∧ countOf g.id trees < countOf g.id out := by
  obtain ⟨out, hout⟩ : ∃ out, g.applyNodes trees = some out := by
    rw [exists_applyNodes_iff]
    intro n _
    rw [exists_applyNode_iff hne]
    exact fun hloops => hself hloops.1
  obtain ⟨tree, ht, huses⟩ := huses
  exact ⟨out, Forest.apply_eq_ok_iff.mpr ⟨hne, hout⟩,
    countOf_lt_of_applyNodes hout ht fun _ => countOf_lt_of_applyNode hne huses⟩

end Grouping
end GrammarInduction
