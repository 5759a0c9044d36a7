import GrammarInduction.Proofs.Forest.OnePass

/-!
Groupings that keep clear of each other commute. Where no run of one pattern has a child in common
with a run of the other, the runs that a pass takes are there before and after a pass of the other
grouping, and neither finds anything new in the nodes that the other one makes.
-/
namespace GrammarInduction
namespace Grouping

open Node

/-- No run of one pattern shares a position with a run of the other one. -/
def Clear (p q ls : List String) : Prop :=
  ∀ i < ls.length, ∀ j < ls.length, p <+: ls.drop i → q <+: ls.drop j →
    i + p.length ≤ j ∨ j + q.length ≤ i

instance (p q ls : List String) : Decidable (Clear p q ls) :=
  inferInstanceAs (Decidable (∀ i < _, ∀ j < _, _))

section

variable {p q ls rest : List String}

lemma Clear.symm (h : Clear p q ls) : Clear q p ls :=
  fun i hi j hj hq hp => (h j hj i hi hp hq).symm

/-- Labels at the beginning do not matter to the runs behind them. -/
theorem Clear.of_append {as : List String} (h : Clear p q (as ++ rest)) : Clear p q rest := by
  intro i hi j hj hp hq
  have hdrop : ∀ k, (as ++ rest).drop (as.length + k) = rest.drop k := fun k => by
    rw [← List.drop_drop, List.drop_left]
  have hlen : (as ++ rest).length = as.length + rest.length := List.length_append
  have := h (as.length + i) (by omega) (as.length + j) (by omega) (by rwa [hdrop]) (by rwa [hdrop])
  omega

lemma Clear.of_cons {l : String} (h : Clear p q (l :: rest)) : Clear p q rest := by
  rw [← List.singleton_append] at h
  exact h.of_append

/-- Within a run of one pattern no run of the other one begins. -/
theorem Clear.not_prefix_drop (hq : q ≠ []) (h : Clear p q (p ++ rest)) {k : Nat}
    (hk : k < p.length) : ¬q <+: (p ++ rest).drop k := by
  intro hpre
  have hpos := List.length_pos_of_ne_nil hq
  have hlen : (p ++ rest).length = p.length + rest.length := List.length_append
  have := h 0 (by omega) k (by omega) (List.prefix_append p rest) hpre
  omega

/-- Where there is a run of one pattern, it holds no run of the other one. -/
theorem Clear.not_infix (hq : q ≠ []) (h : Clear p q (p ++ rest)) : ¬q <:+: p := by
  rintro ⟨before, after, rfl⟩
  have hpos := List.length_pos_of_ne_nil hq
  refine h.not_prefix_drop hq (k := before.length) ?_ ?_
  · simp only [List.length_append]
    omega
  · rw [List.append_assoc, List.append_assoc, List.drop_left]
    exact List.prefix_append _ _

end

section

variable {α : Type _} {pattern : List String} {label : α → String} {put : List α → α}

/-- Items at which no run begins are left alone. -/
theorem pass_append {as bs : List α}
    (h : ∀ k < as.length, ¬pattern <+: ((as ++ bs).drop k).map label) :
    pass pattern label put (as ++ bs) = as ++ pass pattern label put bs := by
  induction as with
  | nil => rfl
  | cons a as ih =>
    have hhere : ¬pattern <+: (a :: (as ++ bs)).map label := h 0 (Nat.succ_pos _)
    rw [List.cons_append, pass_skip hhere, List.cons_append]
    exact congrArg (a :: ·) (ih fun k hk => h (k + 1) (Nat.succ_lt_succ hk))

/-- What holds along two passes at once: of a list that begins with a run of either pattern if it
holds behind the run, and of one that begins with neither if it holds behind the first item. -/
theorem runs_induct {p q : List String} (label : α → String) (hp : p ≠ []) (hq : q ≠ [])
    {P : List α → Prop} (nil : P [])
    (first : ∀ run rest, run.map label = p → P rest → P (run ++ rest))
    (second : ∀ run rest, run.map label = q → P rest → P (run ++ rest))
    (skip : ∀ a as, ¬p <+: (a :: as).map label → ¬q <+: (a :: as).map label → P as → P (a :: as))
    (as : List α) : P as := by
  -- A run is split off the list, so the induction is on the length.
  have hsplit : ∀ {ls : List String} {as : List α}, ls <+: as.map label →
      (as.take ls.length).map label = ls := by
    intro ls as h
    rw [List.map_take]
    exact (List.prefix_iff_eq_take.mp h).symm
  induction hn : as.length using Nat.strong_induction_on generalizing as with
  | _ n ih =>
    cases as with
    | nil => exact nil
    | cons a as =>
      have hppos := List.length_pos_of_ne_nil hp
      have hqpos := List.length_pos_of_ne_nil hq
      rw [List.length_cons] at hn
      by_cases hpp : p <+: (a :: as).map label
      · rw [← List.take_append_drop p.length (a :: as)]
        refine first _ _ (hsplit hpp) (ih _ ?_ _ rfl)
        rw [List.length_drop, List.length_cons]
        omega
      · by_cases hqq : q <+: (a :: as).map label
        · rw [← List.take_append_drop q.length (a :: as)]
          refine second _ _ (hsplit hqq) (ih _ ?_ _ rfl)
          rw [List.length_drop, List.length_cons]
          omega
        · exact skip a as hpp hqq (ih as.length (by omega) as rfl)

end

section

variable {g h : Grouping} (hg : g.pattern ≠ []) (hh : h.pattern ≠ [])

include hh

/-- A pass leaves a run of the other grouping alone. -/
theorem sweep_append_of_clear {run rest : List Node} (hrun : run.map label = g.pattern)
    (hclear : Clear g.pattern h.pattern ((run ++ rest).map label)) :
    h.sweep (run ++ rest) = run ++ h.sweep rest := by
  rw [List.map_append, hrun] at hclear
  refine pass_append fun k hk => ?_
  rw [List.map_drop, List.map_append, hrun]
  refine hclear.not_prefix_drop hh ?_
  rwa [← hrun, List.length_map]

/-- A new node of one grouping begins no run of the other. -/
theorem sweep_node (hgh : g.id ∉ h.pattern) (run ns : List Node) :
    h.sweep (g.node run :: ns) = g.node run :: h.sweep ns := by
  refine pass_skip ?_
  rw [List.map_cons]
  exact fun hpre => hh (eq_nil_of_prefix_cons hgh hpre)

include hg

/-- Two passes over a list that begins with a run of the first grouping. -/
theorem sweep_sweep_append (hgh : g.id ∉ h.pattern) {run rest : List Node}
    (hrun : run.map label = g.pattern)
    (hclear : Clear g.pattern h.pattern ((run ++ rest).map label)) :
    h.sweep (g.sweep (run ++ rest)) = g.node run :: h.sweep (g.sweep rest) ∧
      g.sweep (h.sweep (run ++ rest)) = g.node run :: g.sweep (h.sweep rest) := by
  have htake : ∀ ns, g.sweep (run ++ ns) = g.node run :: g.sweep ns := fun ns =>
    pass_take hg ns hrun
  rw [htake, sweep_node hh hgh, sweep_append_of_clear hh hrun hclear, htake]
  exact ⟨rfl, rfl⟩

omit hh in
/-- A list that begins with a run of neither grouping does so after a pass of one of them. -/
theorem sweep_sweep_cons (hgh : g.id ∉ h.pattern) {n : Node} {ns : List Node}
    (hng : ¬g.pattern <+: (n :: ns).map label) (hnh : ¬h.pattern <+: (n :: ns).map label) :
    h.sweep (g.sweep (n :: ns)) = n :: h.sweep (g.sweep ns) := by
  have hskip : g.sweep (n :: ns) = n :: g.sweep ns := pass_skip hng
  have hno : ¬h.pattern <+: (n :: g.sweep ns).map label := by
    rw [← hskip, map_label_sweep hg]
    exact fun hpre => hnh ((prefix_sweepLabels_iff hg hgh 0).mp hpre).1
  rw [hskip]
  exact pass_skip hno

variable (hgh : g.id ∉ h.pattern) (hhg : h.id ∉ g.pattern)

include hgh hhg

/-- Passes of two groupings that keep clear of each other commute. -/
theorem sweep_comm {ns : List Node} (hclear : Clear g.pattern h.pattern (ns.map label)) :
    h.sweep (g.sweep ns) = g.sweep (h.sweep ns) := by
  induction ns using runs_induct label hg hh with
  | nil => simp only [sweep, pass_nil]
  | first run rest hrun ih =>
    obtain ⟨hgfirst, hhfirst⟩ := sweep_sweep_append hg hh hgh hrun hclear
    rw [List.map_append] at hclear
    rw [hgfirst, hhfirst, ih hclear.of_append]
  | second run rest hrun ih =>
    obtain ⟨hhfirst, hgfirst⟩ := sweep_sweep_append hh hg hhg hrun hclear.symm
    rw [List.map_append] at hclear
    rw [hgfirst, hhfirst, ih hclear.of_append]
  | skip n ns hng hnh ih =>
    rw [sweep_sweep_cons hg hgh hng hnh, sweep_sweep_cons hh hhg hnh hng, ih hclear.of_cons]

omit hgh hhg in
/-- A pass may come before or after the changes within its nodes: the other grouping finds no run in
the new ones. -/
theorem map_sweepTree_sweep {ns : List Node}
    (hclear : Clear g.pattern h.pattern (ns.map label)) :
    (g.sweep ns).map h.sweepTree = g.sweep (ns.map h.sweepTree) := by
  have hlabel : ∀ ms : List Node, (ms.map h.sweepTree).map label = ms.map label := by
    simp [Function.comp_def]
  rw [sweep, sweep]
  induction ns using pass_induct label hg with
  | nil => rw [pass_nil, List.map_nil, pass_nil]
  | take run rest hrun ih =>
    rw [List.map_append, hrun] at hclear
    have hkept : h.sweep (run.map h.sweepTree) = run.map h.sweepTree := by
      refine sweep_of_collapseFirst?_eq_none ((collapseFirst?_eq_none_iff hh).mpr ?_)
      rw [hlabel, hrun]
      exact hclear.not_infix hh
    have hnode : h.sweepTree (g.node run) = g.node (run.map h.sweepTree) := by
      rw [node, sweepTree_branch, hkept, node]
    rw [pass_take hg rest hrun, List.map_cons, ih hclear.of_append, hnode, List.map_append,
      pass_take hg _ ((hlabel run).trans hrun)]
  | skip n ns hno ih =>
    have hno' : ¬g.pattern <+: (h.sweepTree n :: ns.map h.sweepTree).map label := by
      rw [← List.map_cons, hlabel]
      exact hno
    rw [pass_skip hno, List.map_cons, ih hclear.of_cons, List.map_cons, pass_skip hno']

/-- The changes of a tree by two groupings commute if they do in each child list. -/
theorem sweepTree_comm {n : Node} (hclear : ∀ m ∈ n.reached, m.isTerminal = false →
    Clear g.pattern h.pattern (Forest.labels m.children)) :
    h.sweepTree (g.sweepTree n) = g.sweepTree (h.sweepTree n) := by
  induction n using Node.induct with
  | step l t cs ih =>
    cases t with
    | true => rw [sweepTree_terminal, sweepTree_terminal, sweepTree_terminal]
    | false =>
      rw [← Node.branch, reached_branch, List.forall_mem_cons] at hclear
      have hhere : Clear g.pattern h.pattern (cs.map label) := hclear.1 rfl
      have hlabels : ∀ k : Grouping, (cs.map k.sweepTree).map label = cs.map label := by
        simp [Function.comp_def]
      have hchildren : (cs.map g.sweepTree).map h.sweepTree =
          (cs.map h.sweepTree).map g.sweepTree := by
        rw [List.map_map, List.map_map]
        exact List.map_congr_left fun c hc => ih c hc fun m hm =>
          hclear.2 m (mem_reachedOf_iff.mpr ⟨c, hc, hm⟩)
      have hafter : Clear g.pattern h.pattern
          (((cs.map g.sweepTree).map h.sweepTree).map label) := by
        rw [List.map_map, List.map_map]
        simpa [Function.comp_def] using hhere
      change h.sweepTree (g.sweepTree (branch l cs)) = g.sweepTree (h.sweepTree (branch l cs))
      calc h.sweepTree (g.sweepTree (branch l cs))
          = branch l (h.sweep ((g.sweep (cs.map g.sweepTree)).map h.sweepTree)) := by
            rw [sweepTree_branch, sweepTree_branch]
        _ = branch l (h.sweep (g.sweep ((cs.map g.sweepTree).map h.sweepTree))) := by
            rw [map_sweepTree_sweep hg hh (by rwa [hlabels])]
        _ = branch l (g.sweep (h.sweep ((cs.map h.sweepTree).map g.sweepTree))) := by
            rw [sweep_comm hg hh hgh hhg hafter, hchildren]
        _ = branch l (g.sweep ((h.sweep (cs.map h.sweepTree)).map g.sweepTree)) := by
            rw [map_sweepTree_sweep hh hg (by rw [hlabels]; exact hhere.symm)]
        _ = g.sweepTree (h.sweepTree (branch l cs)) := by
            rw [sweepTree_branch, sweepTree_branch]

end

/-- Two groupings whose names are in neither pattern can be applied in either order, and the forest
is the same, if among the children of each nonterminal that is reached through nonterminals no run
of one pattern shares a child with a run of the other. -/
theorem clear_groupings_commute {trees : Forest} {g h : Grouping} (hg : g.pattern ≠ [])
    (hh : h.pattern ≠ []) (hgid : g.id ∉ g.pattern ++ h.pattern)
    (hhid : h.id ∉ g.pattern ++ h.pattern)
    (hclear : ∀ n ∈ reachedOf trees, n.isTerminal = false →
      Clear g.pattern h.pattern (Forest.labels n.children)) :
    ∃ mid mid' out, trees.apply g = .ok mid ∧ mid.apply h = .ok out ∧
      trees.apply h = .ok mid' ∧ mid'.apply g = .ok out := by
  rw [List.mem_append, not_or] at hgid hhid
  refine ⟨_, _, _, apply_eq_map_sweepTree hg hgid.1 _, apply_eq_map_sweepTree hh hhid.2 _,
    apply_eq_map_sweepTree hh hhid.2 _, ?_⟩
  rw [apply_eq_map_sweepTree hg hgid.1, List.map_map, List.map_map]
  refine congrArg Except.ok (List.map_congr_left fun tree ht => ?_)
  exact (sweepTree_comm hg hh hgid.2 hhid.1 fun n hn =>
    hclear n (mem_reachedOf_iff.mpr ⟨tree, ht, hn⟩)).symm

def doubled : Grouping := ⟨["c", "c"], "m"⟩

/-- A tree with overlapping runs of both patterns, side by side and within each other's runs. -/
def clearForest : Forest :=
  [.branch "START"
    [.branch "a" (["c", "c", "c"].map .terminal), .terminal "b", .terminal "a", .terminal "b",
      .terminal "a", .branch "c" (["a", "b", "a"].map .terminal), .terminal "c", .terminal "c"]]

/-- The same tree with both groupings applied. -/
def clearGrouped : Forest :=
  [.branch "START"
    [.branch "n"
      [.branch "a" [.branch "m" [.terminal "c", .terminal "c"], .terminal "c"], .terminal "b",
        .terminal "a"],
      .terminal "b", .terminal "a",
      .branch "m"
        [.branch "c" [.branch "n" (["a", "b", "a"].map .terminal)], .terminal "c"],
      .terminal "c"]]

theorem clear_groupings_commute_clearForest :
    selfOverlap.pattern ≠ [] ∧ doubled.pattern ≠ [] ∧
      selfOverlap.id ∉ selfOverlap.pattern ++ doubled.pattern ∧
      doubled.id ∉ selfOverlap.pattern ++ doubled.pattern ∧
      (∀ n ∈ reachedOf clearForest, n.isTerminal = false →
        Clear selfOverlap.pattern doubled.pattern (Forest.labels n.children)) ∧
      ∃ mid mid', clearForest.apply selfOverlap = .ok mid ∧ mid.apply doubled = .ok clearGrouped ∧
        clearForest.apply doubled = .ok mid' ∧ mid'.apply selfOverlap = .ok clearGrouped := by
  have hg : selfOverlap.pattern ≠ [] := by decide
  have hh : doubled.pattern ≠ [] := by decide
  have hgid : selfOverlap.id ∉ selfOverlap.pattern ++ doubled.pattern := by decide
  have hhid : doubled.id ∉ selfOverlap.pattern ++ doubled.pattern := by decide
  have hclear : ∀ n ∈ reachedOf clearForest, n.isTerminal = false →
      Clear selfOverlap.pattern doubled.pattern (Forest.labels n.children) := by decide
  obtain ⟨mid, mid', out, hmid, hout, hmid', hout'⟩ :=
    clear_groupings_commute hg hh hgid hhid hclear
  have hgrouped : (clearForest.apply selfOverlap >>= fun mid => mid.apply doubled) =
      .ok clearGrouped := by rfl
  obtain rfl : out = clearGrouped := by
    rw [hmid] at hgrouped
    exact Except.ok.inj (hout.symm.trans hgrouped)
  exact ⟨hg, hh, hgid, hhid, hclear, mid, mid', hmid, hout, hmid', hout'⟩

end Grouping
end GrammarInduction
