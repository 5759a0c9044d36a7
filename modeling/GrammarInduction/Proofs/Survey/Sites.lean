import Mathlib.Data.List.Nodup
import GrammarInduction.Survey.Visit

/-!
The sites of a survey. A path of child positions leads from a root through nonterminals to a node;
the visits of a forest are exactly the ends of these paths, and no site is visited twice.
-/
namespace GrammarInduction

namespace Node

/-- The node at the end of a path of child positions, where all children on the way are
nonterminals. -/
def descend? : Node → List Nat → Option Node
  | n, [] => some n
  | n, i :: path =>
    match n.children[i]? with
    | some c => if c.isTerminal then none else c.descend? path
    | none => none

@[simp] lemma descend?_nil (n : Node) : n.descend? [] = some n := rfl

lemma descend?_cons_eq_some_iff {n m : Node} {i : Nat} {path : List Nat} :
    n.descend? (i :: path) = some m ↔
      ∃ c, n.children[i]? = some c ∧ c.isTerminal = false ∧ c.descend? path = some m := by
  cases hc : n.children[i]? with
  | none => simp [descend?, hc]
  | some c => by_cases ht : c.isTerminal <;> simp [descend?, hc, ht]

end Node

def Forest.descend? (trees : Forest) (site : Site) : Option Node :=
  trees[site.tree]?.bind fun n => n.descend? site.path

lemma Forest.descend?_eq_some_iff {trees : Forest} {site : Site} {m : Node} :
    trees.descend? site = some m ↔
      ∃ n, trees[site.tree]? = some n ∧ n.descend? site.path = some m := by
  simp [Forest.descend?, Option.bind_eq_some_iff]

namespace Visit

def root (tree : Nat) (n : Node) : Visit := ⟨⟨tree, []⟩, n, .start, .stop, 0⟩

def child? (v : Visit) (i : Nat) : Option Visit :=
  match v.node.children[i]? with
  | some c =>
    if c.isTerminal then none
    else some ⟨⟨v.site.tree, v.site.path ++ [i]⟩, c, if i = 0 then v.left else .hidden,
      if i + 1 = v.size then v.right else .hidden, v.depth + 1⟩
  | none => none

/-- The visit at the end of a path that starts at a visit. -/
def follow? : Visit → List Nat → Option Visit
  | v, [] => some v
  | v, i :: path => (v.child? i).bind fun w => w.follow? path

def below (v : Visit) : List Visit :=
  v.node.visits v.site.tree v.site.path v.left v.right v.depth

lemma child?_eq_some {v w : Visit} {i : Nat} (h : v.child? i = some w) :
    v.node.children[i]? = some w.node ∧ w.node.isTerminal = false ∧
      w.site = ⟨v.site.tree, v.site.path ++ [i]⟩ ∧ w.depth = v.depth + 1 := by
  cases hc : v.node.children[i]? with
  | none => simp [child?, hc] at h
  | some c =>
    by_cases ht : c.isTerminal
    · simp [child?, hc, ht] at h
    · simp only [child?, hc, ht, if_false, Option.some.injEq, Bool.false_eq_true] at h
      subst h
      simpa using ht

/-- A child sees what stands next to its parent from either end only. -/
theorem child?_frame {v w : Visit} {i : Nat} (h : v.child? i = some w) :
    w.left = (if i = 0 then v.left else .hidden) ∧
      w.right = if i + 1 = v.size then v.right else .hidden := by
  cases hc : v.node.children[i]? with
  | none => simp [child?, hc] at h
  | some c =>
    by_cases ht : c.isTerminal
    · simp [child?, hc, ht] at h
    · simp only [child?, hc, ht, if_false, Option.some.injEq, Bool.false_eq_true] at h
      subst h
      exact ⟨rfl, rfl⟩

/-- The visits of the children from a position on, one child after the other. -/
theorem childVisits_eq (v : Visit) (ix : Nat) (cs : List Node) (h : v.node.children.drop ix = cs) :
    Node.childVisits v.site.tree v.site.path v.left v.right v.depth ix cs =
      (List.range' ix cs.length).flatMap fun i => (v.child? i).elim [] below := by
  induction cs generalizing ix with
  | nil => simp [Node.childVisits]
  | cons c cs ih =>
    have hlt : ix < v.node.children.length := by
      by_contra hge
      simp [List.drop_eq_nil_of_le (Nat.le_of_not_lt hge)] at h
    rw [List.drop_eq_getElem_cons hlt, List.cons.injEq] at h
    have hget : v.node.children[ix]? = some c := by rw [List.getElem?_eq_getElem hlt, h.1]
    have hlast : cs.isEmpty = decide (ix + 1 = v.size) := by
      have hlen := congrArg List.length h.2
      simp only [List.length_drop] at hlen
      rw [Bool.eq_iff_iff, List.isEmpty_iff_length_eq_zero, decide_eq_true_eq, size]
      omega
    rw [Node.childVisits, List.length_cons, List.range'_succ, List.flatMap_cons, ih (ix + 1) h.2]
    congr 1
    by_cases ht : c.isTerminal
    · simp [child?, hget, ht]
    · simp [child?, hget, ht, below, hlast]

/-- A visit comes first, then what is below its children. -/
theorem below_eq (v : Visit) :
    v.below = v :: (List.range v.size).flatMap fun i => (v.child? i).elim [] below := by
  have h := childVisits_eq v 0 v.node.children rfl
  obtain ⟨site, ⟨l, t, cs⟩, left, right, depth⟩ := v
  simpa [below, Node.visits, size, List.range_eq_range'] using h

/-- An induction along the nonterminals below a visit. -/
theorem induct {P : Visit → Prop}
    (step : ∀ v : Visit, (∀ i w, v.child? i = some w → P w) → P v) (v : Visit) : P v := by
  obtain ⟨n, hn⟩ : ∃ n, v.node = n := ⟨_, rfl⟩
  induction n using Node.induct generalizing v with
  | step l t cs ih =>
    refine step v fun i w hw => ?_
    have hc := (child?_eq_some hw).1
    rw [hn] at hc
    exact ih w.node (List.mem_of_getElem? hc) w rfl

/-- The visits below a visit are the ends of the paths that start there. -/
theorem mem_below_iff {v w : Visit} : w ∈ v.below ↔ ∃ path, v.follow? path = some w := by
  induction v using induct generalizing w with
  | step v ih =>
    rw [below_eq, List.mem_cons, List.mem_flatMap]
    constructor
    · rintro (rfl | ⟨i, -, hw⟩)
      · exact ⟨[], rfl⟩
      · cases hc : v.child? i with
        | none => simp [hc] at hw
        | some u =>
          rw [hc] at hw
          obtain ⟨path, hp⟩ := (ih i u hc).mp hw
          exact ⟨i :: path, by simp [follow?, hc, hp]⟩
    · rintro ⟨path, hp⟩
      cases path with
      | nil => exact .inl (Option.some.inj hp).symm
      | cons i path =>
        obtain ⟨u, hc, hu⟩ := Option.bind_eq_some_iff.mp hp
        have hlt : i < v.size := (List.getElem?_eq_some_iff.mp (child?_eq_some hc).1).1
        refine .inr ⟨i, List.mem_range.mpr hlt, ?_⟩
        simpa [hc] using (ih i u hc).mpr ⟨path, hu⟩

/-- A path leads to the node at its end and is part of the site there. -/
theorem follow?_eq_some {v w : Visit} {path : List Nat} (h : v.follow? path = some w) :
    v.node.descend? path = some w.node ∧ w.site = ⟨v.site.tree, v.site.path ++ path⟩ ∧
      w.depth = v.depth + path.length := by
  induction path generalizing v with
  | nil =>
    obtain rfl := Option.some.inj h
    exact ⟨rfl, by rw [List.append_nil], rfl⟩
  | cons i path ih =>
    obtain ⟨u, hc, hu⟩ := Option.bind_eq_some_iff.mp h
    obtain ⟨hget, ht, hsite, hdepth⟩ := child?_eq_some hc
    obtain ⟨hnode, hs, hd⟩ := ih hu
    refine ⟨Node.descend?_cons_eq_some_iff.mpr ⟨_, hget, ht, hnode⟩, ?_, ?_⟩
    · rw [hs, hsite]; simp
    · rw [hd, hdepth, List.length_cons]; omega

/-- Wherever a path leads through nonterminals there is a visit. -/
theorem follow?_of_descend? {v : Visit} {path : List Nat} {m : Node}
    (h : v.node.descend? path = some m) : ∃ w, v.follow? path = some w := by
  induction path generalizing v with
  | nil => exact ⟨v, rfl⟩
  | cons i path ih =>
    obtain ⟨c, hget, ht, hd⟩ := Node.descend?_cons_eq_some_iff.mp h
    obtain ⟨u, hc⟩ : ∃ u, v.child? i = some u := by simp [child?, hget, ht]
    have hu : u.node = c := Option.some.inj ((child?_eq_some hc).1.symm.trans hget)
    obtain ⟨w, hw⟩ := ih (v := u) (hu ▸ hd)
    exact ⟨w, by simp [follow?, hc, hw]⟩

lemma nodup_below (v : Visit) : (v.below.map site).Nodup := by
  induction v using induct with
  | step v ih =>
    have hpath : ∀ i, ∀ w ∈ (v.child? i).elim [] below, ∃ rest,
        w.site = ⟨v.site.tree, v.site.path ++ i :: rest⟩ := by
      intro i w hw
      cases hc : v.child? i with
      | none => simp [hc] at hw
      | some u =>
        rw [hc] at hw
        obtain ⟨rest, hr⟩ := mem_below_iff.mp hw
        exact ⟨rest, by rw [(follow?_eq_some hr).2.1, (child?_eq_some hc).2.2.1]; simp⟩
    rw [below_eq, List.map_cons, List.nodup_cons]
    constructor
    · intro h
      obtain ⟨w, hw, hs⟩ := List.mem_map.mp h
      obtain ⟨i, -, hw⟩ := List.mem_flatMap.mp hw
      obtain ⟨rest, hr⟩ := hpath i w hw
      have := congrArg (fun s => s.path.length) (hs.symm.trans hr)
      simp at this
    · rw [List.map_flatMap, List.nodup_flatMap]
      constructor
      · intro i _
        cases hc : v.child? i with
        | none => simp
        | some u => exact ih i u hc
      · refine (List.nodup_range).imp fun {i j} hne => ?_
        intro s hi hj
        obtain ⟨w, hw, rfl⟩ := List.mem_map.mp hi
        obtain ⟨w', hw', hs⟩ := List.mem_map.mp hj
        obtain ⟨rest, hr⟩ := hpath i w hw
        obtain ⟨rest', hr'⟩ := hpath j w' hw'
        rw [hr, hr'] at hs
        simp only [Site.mk.injEq, List.append_cancel_left_eq, List.cons.injEq] at hs
        exact hne hs.2.1.symm

end Visit

namespace Forest

lemma mem_visitsFrom_iff {trees : Forest} {k : Nat} {v : Visit} :
    v ∈ visitsFrom k trees ↔
      ∃ j n path, trees[j]? = some n ∧ (Visit.root (k + j) n).follow? path = some v := by
  induction trees generalizing k with
  | nil => simp [visitsFrom]
  | cons t ts ih =>
    have hroot : v ∈ t.visits k [] .start .stop 0 ↔
        ∃ path, (Visit.root k t).follow? path = some v := Visit.mem_below_iff (v := Visit.root k t)
    rw [visitsFrom, List.mem_append, hroot, ih]
    constructor
    · rintro (⟨path, hp⟩ | ⟨j, n, path, hn, hp⟩)
      · exact ⟨0, t, path, rfl, hp⟩
      · exact ⟨j + 1, n, path, by simpa using hn, by rwa [show k + (j + 1) = k + 1 + j by omega]⟩
    · rintro ⟨j, n, path, hn, hp⟩
      cases j with
      | zero =>
        obtain rfl : t = n := by simpa using hn
        exact .inl ⟨path, hp⟩
      | succ j =>
        exact .inr ⟨j, n, path, by simpa using hn, by rwa [show k + 1 + j = k + (j + 1) by omega]⟩

lemma mem_visits_iff {trees : Forest} {v : Visit} :
    v ∈ trees.visits ↔ ∃ k n path, trees[k]? = some n ∧ (Visit.root k n).follow? path = some v := by
  simp [visits, mem_visitsFrom_iff]

lemma descend?_of_mem_visits {trees : Forest} {v : Visit} (h : v ∈ trees.visits) :
    trees.descend? v.site = some v.node := by
  obtain ⟨k, n, path, hn, hp⟩ := mem_visits_iff.mp h
  obtain ⟨hd, hs, -⟩ := Visit.follow?_eq_some hp
  rw [descend?_eq_some_iff, hs]
  exact ⟨n, hn, hd⟩

/-- Every site of a forest is visited. -/
theorem exists_visit {trees : Forest} {site : Site} {m : Node} (h : trees.descend? site = some m) :
    ∃ v ∈ trees.visits, v.site = site ∧ v.node = m := by
  obtain ⟨n, hn, hd⟩ := descend?_eq_some_iff.mp h
  obtain ⟨v, hv⟩ := Visit.follow?_of_descend? (v := Visit.root site.tree n) hd
  obtain ⟨hnode, hsite, -⟩ := Visit.follow?_eq_some hv
  refine ⟨v, mem_visits_iff.mpr ⟨_, n, _, hn, hv⟩, hsite, ?_⟩
  exact Option.some.inj (hnode.symm.trans hd)

lemma nodup_visitsFrom (k : Nat) (trees : Forest) : ((visitsFrom k trees).map Visit.site).Nodup := by
  induction trees generalizing k with
  | nil => simp [visitsFrom]
  | cons t ts ih =>
    rw [visitsFrom, List.map_append, List.nodup_append]
    refine ⟨Visit.nodup_below (Visit.root k t), ih (k + 1), ?_⟩
    intro s hs s' hs' he
    obtain ⟨v, hv, rfl⟩ := List.mem_map.mp hs
    obtain ⟨w, hw, rfl⟩ := List.mem_map.mp hs'
    obtain ⟨path, hp⟩ := (Visit.mem_below_iff (v := Visit.root k t)).mp hv
    obtain ⟨j, n, path', -, hp'⟩ := mem_visitsFrom_iff.mp hw
    have hk := congrArg Site.tree he
    rw [(Visit.follow?_eq_some hp).2.1, (Visit.follow?_eq_some hp').2.1] at hk
    simp only [Visit.root] at hk
    omega

/-- No site is visited twice. -/
theorem nodup_visits (trees : Forest) : (trees.visits.map Visit.site).Nodup :=
  nodup_visitsFrom 0 trees

end Forest
end GrammarInduction
