import Mathlib.Data.Finset.Card
import Mathlib.Data.List.Pairwise
import Mathlib.Order.Bounds.Basic
import GrammarInduction.Proofs.Forest.OnePass

/-!
An application collapses as many runs as there can be. Runs that share no position are packed into
a child list; a pass from left to right takes, among all packings, one of the greatest size, since
what it takes ends no later than the first run of any other packing.
-/
namespace GrammarInduction

namespace Grouping

open Node

/-- Runs with the labels of a pattern, no two of which share a position. -/
structure IsPacking (pattern : List String) (start : Nat) (ls : List String)
    (runs : Finset Span) : Prop where
  isRun : ∀ t ∈ runs, IsRun pattern start ls t
  disjoint : ∀ t ∈ runs, ∀ u ∈ runs, t ≠ u → t.isDisjoint u = true

section

variable {pattern ls rest : List String} {start : Nat} {runs : Finset Span}

/-- The runs that a pass takes are a packing of as many runs. -/
theorem isPacking_taken (hne : pattern ≠ []) (start : Nat) (ls : List String) :
    IsPacking pattern start ls (taken pattern start ls).toFinset ∧
      (taken pattern start ls).toFinset.card = (taken pattern start ls).length := by
  have hpairs := pairwise_taken hne ls start
  refine ⟨⟨fun t ht => isRun_of_mem_taken hne (List.mem_toFinset.mp ht), ?_⟩, ?_⟩
  · intro t ht u hu htu
    have : Std.Symm fun t u : Span => t.isDisjoint u = true :=
      ⟨fun _ _ h => Span.isDisjoint_eq_true_iff.mpr (Span.isDisjoint_eq_true_iff.mp h).symm⟩
    have hapart : (taken pattern start ls).Pairwise fun t u => t.isDisjoint u = true :=
      hpairs.imp fun h => Span.isDisjoint_eq_true_iff.mpr (.inl h)
    exact hapart.forall (List.mem_toFinset.mp ht) (List.mem_toFinset.mp hu) htu
  · refine List.toFinset_card_of_nodup (hpairs.imp_of_mem fun {t u} ht _ h he => ?_)
    have := (isRun_of_mem_taken hne ht).last
    have := List.length_pos_of_ne_nil hne
    rw [← he] at h
    omega

lemma IsPacking.filter (h : IsPacking pattern start ls runs) (p : Span → Prop)
    [DecidablePred p] : IsPacking pattern start ls (runs.filter p) where
  isRun t ht := h.isRun t (Finset.mem_of_mem_filter t ht)
  disjoint t ht u hu := h.disjoint t (Finset.mem_of_mem_filter t ht) u (Finset.mem_of_mem_filter u hu)

/-- Runs that all begin behind some labels are a packing of what comes after these. -/
theorem IsPacking.of_append (front : List String)
    (h : IsPacking pattern start (front ++ ls) runs)
    (hle : ∀ t ∈ runs, start + front.length ≤ t.first) :
    IsPacking pattern (start + front.length) ls runs where
  isRun t ht := (isRun_append_iff (hle t ht)).mpr (h.isRun t ht)
  disjoint := h.disjoint

/-- Two runs of a packing do not both begin within the first run that there can be. -/
theorem IsPacking.card_le_succ (h : IsPacking pattern start ls runs) :
    runs.card ≤ (runs.filter fun t => start + pattern.length ≤ t.first).card + 1 := by
  have hfirst : (runs.filter fun t => ¬start + pattern.length ≤ t.first).card ≤ 1 := by
    rw [Finset.card_le_one]
    intro t ht u hu
    rw [Finset.mem_filter] at ht hu
    by_contra htu
    have hapart := Span.isDisjoint_eq_true_iff.mp (h.disjoint t ht.1 u hu.1 htu)
    have := (h.isRun t ht.1).le_first
    have := (h.isRun t ht.1).last
    have := (h.isRun u hu.1).le_first
    have := (h.isRun u hu.1).last
    omega
  have := runs.card_filter_add_card_filter_not fun t => start + pattern.length ≤ t.first
  omega

/-- No packing has more runs than a pass takes. -/
theorem IsPacking.card_le (hne : pattern ≠ []) (h : IsPacking pattern start ls runs) :
    runs.card ≤ (taken pattern start ls).length := by
  induction ls using labels_induct hne generalizing start runs with
  | nil =>
    have hempty : runs = ∅ := Finset.eq_empty_of_forall_notMem fun t ht =>
      hne (List.infix_nil.mp (h.isRun t ht).isInfix)
    rw [hempty]
    exact Nat.zero_le _
  | take rest ih =>
    -- Giving up the first run of the packing for the one that is taken loses none behind it.
    have hbehind := ih ((h.filter fun t => start + pattern.length ≤ t.first).of_append pattern
      fun t ht => (Finset.mem_filter.mp ht).2)
    rw [taken_take hne, List.length_cons]
    exact h.card_le_succ.trans (Nat.succ_le_succ hbehind)
  | skip l ls hno ih =>
    rw [taken_skip hno]
    refine ih (h.of_append [l] fun t ht => ?_)
    have hfirst : t.first ≠ start := fun he => hno ((h.isRun t ht).prefix_of_first_eq he)
    have := (h.isRun t ht).le_first
    rw [List.length_singleton]
    omega

/-- The runs that a pass takes are as many as a packing can have. -/
theorem isGreatest_length_taken (hne : pattern ≠ []) (start : Nat) (ls : List String) :
    IsGreatest {k | ∃ runs, IsPacking pattern start ls runs ∧ runs.card = k}
      (taken pattern start ls).length := by
  obtain ⟨hpacking, hcard⟩ := isPacking_taken hne start ls
  refine ⟨⟨_, hpacking, hcard⟩, ?_⟩
  rintro k ⟨runs, hruns, rfl⟩
  exact hruns.card_le hne

end

variable {g : Grouping}

/-- A pass puts the new name once for each run that it takes. -/
theorem count_sweepLabels (hne : g.pattern ≠ []) {ls : List String} (hid : g.id ∉ ls)
    (start : Nat) : (g.sweepLabels ls).count g.id = (taken g.pattern start ls).length := by
  induction ls using labels_induct hne generalizing start with
  | nil => rw [sweepLabels_nil, taken_nil, List.count_nil, List.length_nil]
  | take rest ih =>
    rw [sweepLabels_take hne, List.count_cons_self, taken_take hne, List.length_cons,
      ih (fun h => hid (List.mem_append_right _ h))]
  | skip l ls hno ih =>
    rw [List.mem_cons, not_or] at hid
    rw [sweepLabels_skip hno, List.count_cons_of_ne (Ne.symm hid.1), taken_skip hno, ih hid.2]

/-- The new nodes among the children of a nonterminal are as many as its children have disjoint
runs of the pattern. -/
theorem isGreatest_countP_children (hne : g.pattern ≠ []) {n : Node} (hn : n.isTerminal = false)
    (hnew : ∀ c ∈ n.children, c.label ≠ g.id) :
    IsGreatest {k | ∃ runs, IsPacking g.pattern 0 (Forest.labels n.children) runs ∧ runs.card = k}
      ((g.sweepTree n).children.countP fun c => c.label = g.id) := by
  have hid : g.id ∉ Forest.labels n.children := by
    rw [Forest.labels, List.mem_map]
    rintro ⟨c, hc, hlabel⟩
    exact hnew c hc hlabel
  have hlabels : (g.sweepTree n).children.map Node.label =
      g.sweepLabels (Forest.labels n.children) := by
    rw [sweepTree_of_nonterminal hn, children_branch, map_label_sweep hne, List.map_map]
    exact congrArg g.sweepLabels (List.map_congr_left fun c _ => label_sweepTree c)
  have hcount : ((g.sweepTree n).children.countP fun c => c.label = g.id) =
      (taken g.pattern 0 (Forest.labels n.children)).length := by
    rw [← count_sweepLabels hne hid 0, ← hlabels, List.count, List.countP_map]
    rfl
  rw [hcount]
  exact isGreatest_length_taken hne 0 _

/-- A grouping whose name is new to its pattern and to a forest collapses as many runs as possible.
The nodes that are reached are those of before after their own application, in their order, with
new nodes in between, and each nonterminal of before has among its children as many new nodes as
its child list had runs of the pattern of which no two share a position. -/
theorem application_collapses_most {trees : Forest} (hne : g.pattern ≠ []) (hid : g.id ∉ g.pattern)
    (hnew : ∀ n ∈ nodesOf trees, n.label ≠ g.id) :
    ∃ out, trees.apply g = .ok out ∧
      List.Forall₂ (fun n n' => g.applyNode n = some n' ∧ (n.isTerminal = false →
          IsGreatest {k | ∃ runs, IsPacking g.pattern 0 (Forest.labels n.children) runs ∧
            runs.card = k} (n'.children.countP fun c => c.label = g.id)))
        (reachedOf trees) ((reachedOf out).filter fun n => n.label ≠ g.id) := by
  refine ⟨_, apply_eq_map_sweepTree hne hid trees, ?_⟩
  rw [filter_reachedOf_map_sweepTree fun tree ht => filter_reached_sweepTree hne fun m hm =>
    hnew m (mem_nodesOf_iff.mpr ⟨tree, ht, hm⟩), List.forall₂_map_right_iff, List.forall₂_same]
  intro n hn
  obtain ⟨tree, ht, hn⟩ := mem_reachedOf_iff.mp hn
  refine ⟨applyNode_eq_sweepTree hne hid n, fun hnt => isGreatest_countP_children hne hnt ?_⟩
  exact fun c hc => hnew c (mem_nodesOf_iff.mpr
    ⟨tree, ht, mem_nodes_of_mem_children (mem_nodes_of_mem_reached hn) hc⟩)

/-- A row of terminals in which each run of the pattern overlaps the next one. -/
def overlapRow : Forest :=
  [.branch "START" (["a", "b", "a", "b", "a", "b", "a"].map .terminal)]

def overlapRowGrouped : Forest :=
  [.branch "START" [.branch "n" (["a", "b", "a"].map .terminal), .terminal "b",
    .branch "n" (["a", "b", "a"].map .terminal)]]

/-- Two of the three runs can be collapsed, although the one in the middle excludes both others. -/
theorem application_collapses_most_overlapRow :
    selfOverlap.pattern ≠ [] ∧ selfOverlap.id ∉ selfOverlap.pattern ∧
      (∀ n ∈ nodesOf overlapRow, n.label ≠ selfOverlap.id) ∧
      overlapRow.apply selfOverlap = .ok overlapRowGrouped ∧
      IsGreatest {k | ∃ runs, IsPacking ["a", "b", "a"] 0 ["a", "b", "a", "b", "a", "b", "a"] runs ∧
        runs.card = k} 2 := by
  have hne : selfOverlap.pattern ≠ [] := by decide
  have hid : selfOverlap.id ∉ selfOverlap.pattern := by decide
  have hnew : ∀ n ∈ nodesOf overlapRow, n.label ≠ selfOverlap.id := by decide
  have hgrouped : overlapRow.apply selfOverlap = .ok overlapRowGrouped := by rfl
  obtain ⟨out, happly, hall⟩ := application_collapses_most hne hid hnew
  obtain rfl : overlapRowGrouped = out := Except.ok.inj (hgrouped.symm.trans happly)
  cases hall with
  | cons hroot _ => exact ⟨hne, hid, hnew, hgrouped, hroot.2 rfl⟩

end Grouping
end GrammarInduction
