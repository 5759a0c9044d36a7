import GrammarInduction.Proofs.Basic
import GrammarInduction.Proofs.Forest.Collapse

/-!
A new name collapses in one pass. Where it is not among the labels of the pattern, collapsing the
leftmost run again and again goes once through the list from left to right: each run is taken as
it comes, and the pass goes on behind it.
-/
namespace GrammarInduction

namespace Grouping

section

variable {α : Type _}

/-- One pass from left to right over items with labels. Wherever the pattern begins, its run is
replaced and the pass goes on behind it. -/
def pass (pattern : List String) (label : α → String) (put : List α → α) : List α → List α
  | [] => []
  | a :: as =>
    if pattern <+: (a :: as).map label then
      put (a :: as.take (pattern.length - 1)) ::
        pass pattern label put (as.drop (pattern.length - 1))
    else a :: pass pattern label put as
termination_by as => as.length
decreasing_by
  · rw [List.length_drop, List.length_cons]; omega
  · rw [List.length_cons]; omega

variable {pattern : List String} {label : α → String} {put : List α → α}

@[simp] lemma pass_nil : pass pattern label put [] = [] := by rw [pass]

lemma pass_skip {a : α} {as : List α} (h : ¬pattern <+: (a :: as).map label) :
    pass pattern label put (a :: as) = a :: pass pattern label put as := by
  rw [pass, if_neg h]

lemma pass_take (hne : pattern ≠ []) {run : List α} (rest : List α)
    (h : run.map label = pattern) :
    pass pattern label put (run ++ rest) = put run :: pass pattern label put rest := by
  subst h
  cases run with
  | nil => exact absurd rfl hne
  | cons a as =>
    have hpre : (a :: as).map label <+: (a :: (as ++ rest)).map label :=
      ⟨rest.map label, by rw [← List.map_append]; rfl⟩
    rw [List.cons_append, pass, if_pos hpre]
    simp

/-- What holds along a pass: of a list that begins with a run if it holds behind the run, and of
one that does not if it holds behind the first item. -/
theorem pass_induct (label : α → String) (hne : pattern ≠ []) {P : List α → Prop} (nil : P [])
    (take : ∀ run rest, run.map label = pattern → P rest → P (run ++ rest))
    (skip : ∀ a as, ¬pattern <+: (a :: as).map label → P as → P (a :: as)) (as : List α) :
    P as := by
  induction as using pass.induct pattern label with
  | case1 => exact nil
  | case2 a as h ih =>
    have hlen : pattern.length = pattern.length - 1 + 1 := by
      have := List.length_pos_of_ne_nil hne
      omega
    have hrun : (a :: as.take (pattern.length - 1)).map label = pattern := by
      rw [← List.take_succ_cons, ← hlen, List.map_take]
      exact (List.prefix_iff_eq_take.mp h).symm
    have hsplit := take _ _ hrun ih
    rwa [List.cons_append, List.take_append_drop] at hsplit
  | case3 a as h ih => exact skip a as h ih

end

variable {g : Grouping}

/-- The list after one pass that puts a node in place of each run. -/
def sweep (g : Grouping) (ns : List Node) : List Node := pass g.pattern Node.label g.node ns

def sweepLabels (g : Grouping) (ls : List String) : List String :=
  pass g.pattern (fun l => l) (fun _ => g.id) ls

lemma matchesHere_iff {ns : List Node} :
    g.matchesHere ns = true ↔ g.pattern <+: ns.map Node.label := startsWith_iff

section

variable (hne : g.pattern ≠ []) (hid : g.id ∉ g.pattern)

include hne in
lemma map_label_sweep (ns : List Node) :
    (g.sweep ns).map Node.label = g.sweepLabels (ns.map Node.label) := by
  rw [sweep, sweepLabels]
  induction ns using pass_induct Node.label hne with
  | nil => rw [pass_nil, List.map_nil, pass_nil]
  | take run rest hrun ih =>
    rw [pass_take hne rest hrun, List.map_cons, ih, List.map_append, hrun,
      pass_take hne _ (List.map_id' g.pattern)]
    rfl
  | skip n ns hno ih =>
    rw [pass_skip hno, List.map_cons, List.map_cons, ih, pass_skip]
    rwa [List.map_id', ← List.map_cons]

include hne hid in
/-- A new node begins no run. -/
theorem not_prefix_node {run ns : List Node} :
    ¬g.pattern <+: (g.node run :: ns).map Node.label := by
  rw [List.map_cons]
  intro h
  exact hne (eq_nil_of_prefix_cons hid h)

include hne hid in
/-- Whether the leftmost run was collapsed before a pass makes no difference to it. -/
theorem sweep_of_collapseFirst? {ns out : List Node} (h : g.collapseFirst? ns = some out) :
    g.sweep out = g.sweep ns := by
  induction ns generalizing out with
  | nil => simp [collapseFirst?] at h
  | cons n ns ih =>
    rw [collapseFirst?] at h
    split at h
    · rename_i hm
      obtain rfl := Option.some.inj h
      have hrun : ((n :: ns).take g.pattern.length).map Node.label = g.pattern := by
        rw [List.map_take]
        exact (List.prefix_iff_eq_take.mp (matchesHere_iff.mp hm)).symm
      rw [sweep, pass_skip (not_prefix_node hne hid)]
      conv_rhs => rw [← List.take_append_drop g.pattern.length (n :: ns), sweep]
      exact (pass_take hne _ hrun).symm
    · rename_i hm
      obtain ⟨rest, hrest, rfl⟩ := Option.map_eq_some_iff.mp h
      rw [matchesHere_iff] at hm
      have hno : ¬g.pattern <+: (n :: rest).map Node.label := by
        -- A run that is new with the collapse would hold the new name.
        obtain ⟨before, run, after, rfl, hrun, rfl⟩ := collapseFirst?_eq_some hrest
        intro hpre
        refine hm ?_
        rw [← List.cons_append, List.map_append, List.map_cons] at hpre
        have hbefore := prefix_of_prefix_append_cons hid hpre
        exact hbefore.trans ⟨(run ++ after).map Node.label, by simp⟩
      rw [sweep, sweep, pass_skip hno, pass_skip hm]
      exact congrArg (n :: ·) (ih hrest)

/-- Where there is no run a pass changes nothing. -/
theorem sweep_of_collapseFirst?_eq_none {ns : List Node} (h : g.collapseFirst? ns = none) :
    g.sweep ns = ns := by
  induction ns with
  | nil => exact pass_nil
  | cons n ns ih =>
    rw [collapseFirst?] at h
    split at h
    · cases h
    · rename_i hm
      rw [matchesHere_iff] at hm
      rw [sweep, pass_skip hm]
      exact congrArg (n :: ·) (ih (Option.map_eq_none_iff.mp h))

/-- A list settles if each collapse lowers a measure that is at most its length. -/
theorem exists_settle {ns : List Node} (measure : List Node → Nat) (hle : measure ns ≤ ns.length)
    (hlt : ∀ ns out, g.collapseFirst? ns = some out → measure out < measure ns) :
    ∃ out, g.settle ns = some out := by
  have hwithin : ∀ fuel ns, measure ns ≤ fuel → ∃ out, g.settleWithin fuel ns = some out := by
    intro fuel
    induction fuel with
    | zero =>
      intro ns hns
      rw [settleWithin]
      cases hc : g.collapseFirst? ns with
      | none => exact ⟨ns, rfl⟩
      | some next => exact absurd (hlt ns next hc) (by omega)
    | succ fuel ih =>
      intro ns hns
      rw [settleWithin]
      cases hc : g.collapseFirst? ns with
      | none => exact ⟨ns, rfl⟩
      | some next =>
        have := hlt ns next hc
        exact ih next (by omega)
  exact hwithin ns.length ns hle

lemma collapseFirst?_of_settleWithin {fuel : Nat} {ns out : List Node}
    (h : g.settleWithin fuel ns = some out) : g.collapseFirst? out = none := by
  induction fuel generalizing ns with
  | zero =>
    rw [settleWithin] at h
    split at h
    · rename_i hc
      exact Option.some.inj h ▸ Option.isNone_iff_eq_none.mp hc
    · cases h
  | succ fuel ih =>
    rw [settleWithin] at h
    cases hc : g.collapseFirst? ns with
    | none =>
      rw [hc] at h
      exact Option.some.inj h ▸ hc
    | some next =>
      rw [hc] at h
      exact ih h

include hne hid in
/-- A list settles as one pass leaves it. -/
theorem settle_eq_sweep (ns : List Node) : g.settle ns = some (g.sweep ns) := by
  -- Every collapse removes a node that is not labelled with the new name.
  have hcount : ∀ ns out, g.collapseFirst? ns = some out →
      out.countP (fun n => n.label ≠ g.id) < ns.countP fun n => n.label ≠ g.id := by
    intro ns out h
    obtain ⟨before, run, after, rfl, hrun, rfl⟩ := collapseFirst?_eq_some h
    have hall : run.countP (fun n => n.label ≠ g.id) = run.length := by
      rw [List.countP_eq_length]
      intro n hn
      have hmem : n.label ∈ g.pattern := hrun ▸ List.mem_map_of_mem hn
      have hold : n.label ≠ g.id := fun he => hid (he ▸ hmem)
      simpa using hold
    have hpos : 0 < run.length := by
      rw [← List.length_map (f := Node.label), hrun]
      exact List.length_pos_of_ne_nil hne
    have hnode : (g.node run).label = g.id := rfl
    simp only [List.countP_append, List.countP_cons, hall, hnode]
    simp
    omega
  obtain ⟨out, hout⟩ : ∃ out, g.settle ns = some out :=
    exists_settle _ List.countP_le_length hcount
  have hsweep : g.sweep out = g.sweep ns :=
    settle_induct (P := fun ms => g.sweep ms = g.sweep ns)
      (fun ms next hms hc => (sweep_of_collapseFirst? hne hid hc).trans hms) rfl hout
  rw [hout, ← hsweep, sweep_of_collapseFirst?_eq_none (collapseFirst?_of_settleWithin hout)]

include hne in
lemma collapseFirst?_eq_none_iff {ns : List Node} :
    g.collapseFirst? ns = none ↔ ¬g.pattern <:+: ns.map Node.label := by
  induction ns with
  | nil => simpa [collapseFirst?] using hne
  | cons n ns ih =>
    rw [collapseFirst?, List.map_cons, List.infix_cons_iff, ← List.map_cons, ← matchesHere_iff]
    split
    · rename_i hm
      simp [hm]
    · rename_i hm
      rw [Option.map_eq_none_iff, ih, or_iff_right hm]

include hne in
/-- Collapses come to an end unless they replace a label by itself. -/
theorem exists_settle_of_not {ns : List Node}
    (h : ¬(g.pattern = [g.id] ∧ g.id ∈ ns.map Node.label)) : ∃ out, g.settle ns = some out := by
  by_cases hid : g.id ∈ g.pattern
  · by_cases hlen : g.pattern.length = 1
    · -- The pattern is the new name, so it stands nowhere.
      have hpattern : g.pattern = [g.id] := by
        obtain ⟨l, hl⟩ := List.length_eq_one_iff.mp hlen
        rw [hl, List.mem_singleton] at hid
        rw [hl, hid]
      have hnone : g.collapseFirst? ns = none := by
        rw [collapseFirst?_eq_none_iff hne, hpattern, List.singleton_infix_iff]
        exact fun hmem => h ⟨hpattern, hmem⟩
      exact ⟨ns, settle_of_collapseFirst?_eq_none hnone⟩
    · -- Every collapse replaces two nodes or more by one.
      refine exists_settle List.length (Nat.le_refl _) fun ns out hc => ?_
      obtain ⟨before, run, after, rfl, hrun, rfl⟩ := collapseFirst?_eq_some hc
      have hcount := congrArg List.length hrun
      have := List.length_pos_of_ne_nil hne
      rw [List.length_map] at hcount
      simp only [List.length_append, List.length_cons]
      omega
  · exact ⟨_, settle_eq_sweep hne hid ns⟩

/-- Where a label is to be replaced by itself no number of collapses is enough. -/
theorem settleWithin_eq_none {ns : List Node} (hpattern : g.pattern = [g.id])
    (hmem : g.id ∈ ns.map Node.label) (fuel : Nat) : g.settleWithin fuel ns = none := by
  rw [Option.eq_none_iff_forall_ne_some]
  intro out hout
  have hkept : g.id ∈ out.map Node.label := by
    refine settleWithin_induct (P := fun ns => g.id ∈ ns.map Node.label) ?_ hmem hout
    intro ns out _ hc
    obtain ⟨before, run, after, rfl, -, rfl⟩ := collapseFirst?_eq_some hc
    simp [node]
  have hnone := collapseFirst?_of_settleWithin hout
  rw [collapseFirst?_eq_none_iff (by rw [hpattern]; exact List.cons_ne_nil _ _), hpattern,
    List.singleton_infix_iff] at hnone
  exact hnone hkept

/-- Whatever number of collapses is allowed, the list that is reached is the same. -/
theorem settleWithin_unique {fuel fuel' : Nat} {ns out out' : List Node}
    (h : g.settleWithin fuel ns = some out) (h' : g.settleWithin fuel' ns = some out') :
    out = out' := by
  induction fuel generalizing fuel' ns with
  | zero =>
    cases hc : g.collapseFirst? ns with
    | none =>
      rw [settleWithin_of_collapseFirst?_eq_none hc] at h h'
      exact Option.some.inj (h.symm.trans h')
    | some next => simp [settleWithin, hc] at h
  | succ fuel ih =>
    cases hc : g.collapseFirst? ns with
    | none =>
      rw [settleWithin_of_collapseFirst?_eq_none hc] at h h'
      exact Option.some.inj (h.symm.trans h')
    | some next =>
      rw [settleWithin, hc] at h
      cases fuel' with
      | zero => simp [settleWithin, hc] at h'
      | succ fuel' =>
        rw [settleWithin, hc] at h'
        exact ih h h'

include hne in
/-- A list that settles at all does so within its own length. -/
theorem settle_of_settleWithin {fuel : Nat} {ns out : List Node}
    (h : g.settleWithin fuel ns = some out) : g.settle ns = some out := by
  obtain ⟨out', hout⟩ : ∃ out', g.settle ns = some out' := by
    refine exists_settle_of_not hne ?_
    rintro ⟨hpattern, hmem⟩
    rw [settleWithin_eq_none hpattern hmem] at h
    cases h
  rw [hout, settleWithin_unique hout h]

end

end Grouping
end GrammarInduction
