import GrammarInduction.Proofs.Forest.Nodes
import GrammarInduction.Proofs.Survey.Spans

/-!
What the recorded spans of a candidate show. Runs share a candidate if their joined labels are
equal, so a span that is recorded need not hold the elements of its candidate, nor as many. It does
wherever joined labels determine the labels, and only there.
-/
namespace GrammarInduction

def Forest.childrenAt (trees : Forest) (site : Site) (span : Span) : List Node :=
  (trees.descend? site).elim [] fun n =>
    (n.children.drop span.first).take (span.last + 1 - span.first)

/-- The children that a span covers have the labels of the elements, in order and number. -/
def Candidate.ShownAt (c : Candidate) (trees : Forest) (site : Site) (span : Span) : Prop :=
  Forest.labels (trees.childrenAt site span) = Forest.labels c.elements ∧
    span.last + 1 = span.first + c.length

/-- Labels of which none is empty and none is the beginning of another one. -/
structure PrefixFree (ls : List String) : Prop where
  ne_empty : ∀ a ∈ ls, a ≠ ""
  eq_of_prefix : ∀ a ∈ ls, ∀ b ∈ ls, a.toList <+: b.toList → a = b

/-- Joined labels of this kind can be read back. -/
theorem PrefixFree.eq_of_join_eq {ls as bs : List String} (h : PrefixFree ls) (ha : as ⊆ ls)
    (hb : bs ⊆ ls) (hjoin : String.join as = String.join bs) : as = bs := by
  have hne : ∀ {b bs}, b ∈ ls → String.join (b :: bs) ≠ "" := by
    intro b bs hb hempty
    rw [String.join_cons, String.append_eq_empty_iff] at hempty
    exact h.ne_empty b hb hempty.1
  induction as generalizing bs with
  | nil =>
    cases bs with
    | nil => rfl
    | cons b bs => exact absurd hjoin.symm (hne (hb List.mem_cons_self))
  | cons a as ih =>
    cases bs with
    | nil => exact absurd hjoin (hne (ha List.mem_cons_self))
    | cons b bs =>
      obtain ⟨hamem, has⟩ := List.cons_subset.mp ha
      obtain ⟨hbmem, hbs⟩ := List.cons_subset.mp hb
      rw [String.join_cons, String.join_cons] at hjoin
      have hlist := congrArg String.toList hjoin
      rw [String.toList_append, String.toList_append] at hlist
      -- Of two beginnings of one text, one is the beginning of the other.
      have hab : a = b := by
        have hapre := List.prefix_append a.toList (String.join as).toList
        have hbpre := List.prefix_append b.toList (String.join bs).toList
        obtain hpre | hpre := List.prefix_or_prefix_of_prefix (hlist ▸ hapre) hbpre
        · exact h.eq_of_prefix a hamem b hbmem hpre
        · exact (h.eq_of_prefix b hbmem a hamem hpre).symm
      subst hab
      have hrest : String.join as = String.join bs :=
        String.toList_injective (List.append_cancel_left hlist)
      rw [ih has hbs hrest]

namespace Node

lemma mem_nodes_of_descend? {n k : Node} {path : List Nat} (h : n.descend? path = some k) :
    k ∈ n.nodes := by
  induction path generalizing n with
  | nil => exact Option.some.inj h ▸ n.self_mem_nodes
  | cons i path ih =>
    obtain ⟨c, hc, -, hd⟩ := descend?_cons_eq_some_iff.mp h
    exact mem_nodes_iff.mpr (.inr (mem_nodesOf_iff.mpr ⟨c, List.mem_of_getElem? hc, ih hd⟩))

end Node

namespace Survey

section

variable {settings : Settings} {trees : Forest} {tables t : Tables} {s : Survey} {r : String}
  {c : Candidate} {site : Site} {span : Span} {n : Node}

lemma childrenAt_span {run : Run} (hpos : 0 < run.len) :
    trees.childrenAt site run.span = (Place.mk site run).elements trees := by
  have hlen : run.span.last + 1 - run.span.first = run.len := by
    simp only [Run.span, Run.stop]
    omega
  rw [Forest.childrenAt, hlen, Place.elements, Place.children, Run.elements, Run.span]
  cases trees.descend? site with
  | none => simp
  | some n => rfl

/-- A run shows the elements if it has their labels. -/
theorem shownAt_span_iff {run : Run} (hp : (Place.mk site run).Admissible settings trees)
    (hpos : 0 < run.len) : c.ShownAt trees site run.span ↔
      Forest.labels ((Place.mk site run).elements trees) = Forest.labels c.elements := by
  rw [Candidate.ShownAt, childrenAt_span hpos]
  refine ⟨And.left, fun hlabels => ⟨hlabels, ?_⟩⟩
  have hlen := congrArg List.length hlabels
  rw [Forest.labels, Forest.labels, List.length_map, List.length_map,
    Place.length_elements hp.fits] at hlen
  simp only [Run.span, Run.stop, Candidate.length, ← hlen]
  omega

/-- Where terminals hold no children, a grouping matches at a span within the children of a site
exactly if the elements are shown there. -/
theorem exists_runAt_iff_shownAt (hproper : ∀ tree ∈ trees, tree.Proper)
    (hn : trees.descend? site = some n) (hin : span.last < n.children.length) :
    (∃ run, c.RunAt trees site span run) ↔ c.ShownAt trees site span := by
  have hne : n.children ≠ [] := List.ne_nil_of_length_pos (Nat.zero_lt_of_lt hin)
  obtain ⟨hat, hnt⟩ := Forest.nonterminal_of_descend? hproper hn hne
  have hlabels : Forest.labels (trees.childrenAt site span) =
      ((Forest.labels n.children).drop span.first).take (span.last + 1 - span.first) := by
    rw [Forest.childrenAt, hn, Option.elim_some, Forest.labels, Forest.labels, List.map_take,
      List.map_drop]
  rw [Candidate.exists_runAt_iff, Candidate.ShownAt, hlabels]
  constructor
  · rintro ⟨k, hk, -, hrun⟩
    obtain rfl := Option.some.inj (hk.symm.trans hat)
    have hlast := hrun.last
    rw [Candidate.length_pattern] at hlast
    refine ⟨?_, hlast⟩
    rw [hlast, Nat.add_sub_cancel_left, ← c.length_pattern]
    exact (List.prefix_iff_eq_take.mp hrun.labels).symm
  · rintro ⟨hshown, hlast⟩
    refine ⟨n, hat, hnt, Nat.zero_le _, ?_, hlast.trans (by rw [Candidate.length_pattern])⟩
    rw [Candidate.grouping, ← hshown]
    exact List.take_prefix _ _

variable (h : ofForest settings trees tables = (.ok s, t)) (hc : s.candidates.get? r = some c)

include h hc

/-- A recorded span lies within the children of its site, and the labels there make up the joined
labels of the candidate. -/
theorem rendered_of_mem_spansAt (hspan : span ∈ c.spansAt site) :
    (∃ n, trees.descend? site = some n ∧ span.Ordered ∧ span.last < n.children.length) ∧
      Forest.rendered (trees.childrenAt site span) = r := by
  obtain ⟨run, hp, hr, rfl⟩ := ((holdsPlaces_of_ofForest_ok h hc).mem_spansAt _ _).mp hspan
  have hpos : 0 < run.len := (no_overflow_of_ofForest_ok h).1.pos_of_admits hp.length
  obtain ⟨n, hn⟩ := hp.atSite
  have hfits : run.stop ≤ n.children.length := Place.children_of_descend? hn ▸ hp.fits
  refine ⟨⟨n, hn, ?_, ?_⟩, ?_⟩
  · simp only [Span.Ordered, Run.span, Run.stop]
    omega
  · simp only [Run.span, Run.stop] at hfits ⊢
    omega
  · rw [childrenAt_span hpos]
    exact hr

/-- The elements of a candidate are those of a recorded run. -/
theorem exists_shownAt : ∃ site, ∃ span ∈ c.spansAt site, c.ShownAt trees site span := by
  obtain ⟨⟨site, run⟩, hp, hr, hel, -, hpos⟩ := exists_place_of_ofForest_ok h hc
  exact ⟨site, run.span, ((holdsPlaces_of_ofForest_ok h hc).mem_spansAt _ _).mpr ⟨run, hp, hr, rfl⟩,
    (shownAt_span_iff hp hpos).mpr (by rw [hel])⟩

/-- All recorded spans show the elements exactly if all admissible runs with the joined labels of
the candidate have the same labels. -/
theorem forall_shownAt_iff : (∀ site, ∀ span ∈ c.spansAt site, c.ShownAt trees site span) ↔
    ∀ p q : Place, p.Admissible settings trees → q.Admissible settings trees →
      p.rendered trees = r → q.rendered trees = r →
      Forest.labels (p.elements trees) = Forest.labels (q.elements trees) := by
  have hrecorded := (holdsPlaces_of_ofForest_ok h hc).mem_spansAt
  have hpos : ∀ {p : Place}, p.Admissible settings trees → 0 < p.run.len := fun hp =>
    (no_overflow_of_ofForest_ok h).1.pos_of_admits hp.length
  constructor
  · intro hshown
    have helements : ∀ p : Place, p.Admissible settings trees → p.rendered trees = r →
        Forest.labels (p.elements trees) = Forest.labels c.elements := fun p hp hr =>
      (shownAt_span_iff hp (hpos hp)).mp (hshown _ _ ((hrecorded _ _).mpr ⟨p.run, hp, hr, rfl⟩))
    exact fun p q hp hq hpr hqr => (helements p hp hpr).trans (helements q hq hqr).symm
  · intro hsame site span hspan
    obtain ⟨run, hq, hqr, rfl⟩ := (hrecorded _ _).mp hspan
    obtain ⟨p, hp, hpr, hel, -, -⟩ := exists_place_of_ofForest_ok h hc
    rw [shownAt_span_iff hq (hpos hq), hsame _ p hq hp hqr hpr, hel]

/-- Where no label is empty or the beginning of another one, all recorded spans show the
elements. -/
theorem shownAt_of_prefixFree (hfree : PrefixFree ((Node.nodesOf trees).map Node.label))
    (hspan : span ∈ c.spansAt site) : c.ShownAt trees site span := by
  have hlabels : ∀ p : Place, p.Admissible settings trees →
      Forest.labels (p.elements trees) ⊆ (Node.nodesOf trees).map Node.label := by
    intro p hp
    obtain ⟨n, hn⟩ := hp.atSite
    obtain ⟨tree, htree, hd⟩ := Forest.descend?_eq_some_iff.mp hn
    refine List.map_subset _ fun e he => ?_
    have hchild := Place.mem_children_of_mem_elements he
    rw [Place.children_of_descend? hn] at hchild
    exact Node.mem_nodesOf_iff.mpr ⟨tree, List.mem_of_getElem? htree,
      Node.mem_nodes_of_mem_children (Node.mem_nodes_of_descend? hd) hchild⟩
  refine (forall_shownAt_iff h hc).mpr (fun p q hp hq hpr hqr => ?_) site span hspan
  exact hfree.eq_of_join_eq (hlabels p hp) (hlabels q hq) (hpr.trans hqr.symm)

end

/-- Valid settings survey every forest within the words. Where terminals hold no children, a recorded
span of a candidate lies within the children of its site, the labels there make up the joined labels
of the candidate, and its grouping matches there exactly if they are those of its elements. They are
at some span, and they are at all of them exactly if no two admissible runs with these joined labels
differ in their labels. -/
theorem shown_at_sources_iff (settings : Settings) (trees : Forest) (tables : Tables)
    (hproper : ∀ tree ∈ trees, tree.Proper) (hs : settings.check = .ok settings)
    (hw : WithinWords settings trees) :
    ∃ s t, ofForest settings trees tables = (.ok s, t) ∧
      ∀ r c, s.candidates.get? r = some c →
        (∀ site, ∀ span ∈ c.spansAt site,
          (∃ n, trees.descend? site = some n ∧ span.Ordered ∧ span.last < n.children.length) ∧
          Forest.rendered (trees.childrenAt site span) = c.rendered ∧
          ((∃ run, c.RunAt trees site span run) ↔ c.ShownAt trees site span)) ∧
        (∃ site, ∃ span ∈ c.spansAt site, c.ShownAt trees site span) ∧
        ((∀ site, ∀ span ∈ c.spansAt site, c.ShownAt trees site span) ↔
          ∀ p q : Place, p.Admissible settings trees → q.Admissible settings trees →
            p.rendered trees = c.rendered → q.rendered trees = c.rendered →
            Forest.labels (p.elements trees) = Forest.labels (q.elements trees)) := by
  have hok := ofForest_of_withinWords tables (Settings.check_eq_ok_iff.mp hs).2 hw
  refine ⟨_, _, hok, fun r c hc => ?_⟩
  obtain rfl := (holdsPlaces_of_ofForest_ok hok hc).rendered
  refine ⟨fun site span hspan => ?_, exists_shownAt hok hc, forall_shownAt_iff hok hc⟩
  obtain ⟨⟨n, hn, hordered, hin⟩, hrendered⟩ := rendered_of_mem_spansAt hok hc hspan
  exact ⟨⟨n, hn, hordered, hin⟩, hrendered, exists_runAt_iff_shownAt hproper hn hin⟩

/-- A root with two runs of different labels that make up the same text. -/
def collidingForest : Forest := [.branch "START" (["a", "b", "c", "ab", "c"].map .terminal)]

def twoOrThree : Settings := { minLen := 2, maxLen := 3 }

lemma proper_collidingForest : ∀ tree ∈ collidingForest, tree.Proper := fun _ ht =>
  List.mem_singleton.mp ht ▸ .flat _ _

lemma withinWords_collidingForest : WithinWords twoOrThree collidingForest :=
  withinWords_of_le (by decide)

/-- The two runs share a candidate, which has the elements of the first one. -/
theorem exists_candidate_collidingForest {s : Survey} {t : Tables}
    (h : ofForest twoOrThree collidingForest {} = (.ok s, t)) :
    ∃ c, s.candidates.get? "abc" = some c ∧ Forest.labels c.elements = ["a", "b", "c"] ∧
      c.spansAt ⟨0, []⟩ = [⟨0, 2⟩, ⟨3, 4⟩] := by
  have hview : (s.candidates.get? "abc").map
      (fun c => (Forest.labels c.elements, c.spansAt ⟨0, []⟩)) =
      some (["a", "b", "c"], [⟨0, 2⟩, ⟨3, 4⟩]) := by
    obtain ⟨rfl, -⟩ := eq_finish_of_ofForest_ok h
    decide +kernel
  obtain ⟨c, hc, hview⟩ := Option.map_eq_some_iff.mp hview
  exact ⟨c, hc, Prod.mk.inj hview⟩

/-- The grouping of the shared candidate matches at the first of its spans and not at the other
one. -/
theorem shown_at_sources_iff_collidingForest :
    (∀ tree ∈ collidingForest, tree.Proper) ∧ twoOrThree.check = .ok twoOrThree ∧
      WithinWords twoOrThree collidingForest ∧
      ∃ s t, ofForest twoOrThree collidingForest {} = (.ok s, t) ∧
        ∃ c, s.candidates.get? "abc" = some c ∧ c.spansAt ⟨0, []⟩ = [⟨0, 2⟩, ⟨3, 4⟩] ∧
          (∃ run, c.RunAt collidingForest ⟨0, []⟩ ⟨0, 2⟩ run) ∧
          (¬∃ run, c.RunAt collidingForest ⟨0, []⟩ ⟨3, 4⟩ run) ∧
          ∃ p q : Place, p.Admissible twoOrThree collidingForest ∧
            q.Admissible twoOrThree collidingForest ∧
            p.rendered collidingForest = q.rendered collidingForest ∧
            Forest.labels (p.elements collidingForest) ≠
              Forest.labels (q.elements collidingForest) := by
  obtain ⟨s, t, hok, hall⟩ := shown_at_sources_iff twoOrThree collidingForest {}
    proper_collidingForest (by decide) withinWords_collidingForest
  obtain ⟨c, hc, helements, hspans⟩ := exists_candidate_collidingForest hok
  obtain ⟨hrecorded, -, hiff⟩ := hall _ c hc
  have hlength : c.length = 3 := by
    rw [← c.length_pattern, Candidate.grouping, helements]
    rfl
  have hfirst : c.ShownAt collidingForest ⟨0, []⟩ ⟨0, 2⟩ := by
    rw [Candidate.ShownAt, helements, hlength]
    decide
  have hsecond : ¬c.ShownAt collidingForest ⟨0, []⟩ ⟨3, 4⟩ := by
    rw [Candidate.ShownAt, helements, hlength]
    decide
  have hmem₁ : ⟨0, 2⟩ ∈ c.spansAt ⟨0, []⟩ := by simp [hspans]
  have hmem₂ : ⟨3, 4⟩ ∈ c.spansAt ⟨0, []⟩ := by simp [hspans]
  refine ⟨proper_collidingForest, by decide, withinWords_collidingForest, s, t, hok, c, hc, hspans,
    (hrecorded _ _ hmem₁).2.2.mpr hfirst, ?_, ?_⟩
  · exact fun hrun => hsecond ((hrecorded _ _ hmem₂).2.2.mp hrun)
  · by_contra hnone
    push Not at hnone
    refine hsecond (hiff.mpr (fun p q hp hq hpr hqr => ?_) _ _ hmem₂)
    exact hnone p q hp hq (hpr.trans hqr.symm)

/-- A recorded span with fewer children than its candidate has elements. -/
theorem other_labels_collidingForest :
    (∀ tree ∈ collidingForest, tree.Proper) ∧ twoOrThree.check = .ok twoOrThree ∧
      WithinWords twoOrThree collidingForest ∧
      ∃ s t c, ofForest twoOrThree collidingForest {} = (.ok s, t) ∧
        s.candidates.get? "abc" = some c ∧ ⟨3, 4⟩ ∈ c.spansAt ⟨0, []⟩ ∧
        Forest.labels (collidingForest.childrenAt ⟨0, []⟩ ⟨3, 4⟩) = ["ab", "c"] ∧
        Forest.labels c.elements = ["a", "b", "c"] := by
  have hok := ofForest_of_withinWords {} (by decide) withinWords_collidingForest
  obtain ⟨c, hc, helements, hspans⟩ := exists_candidate_collidingForest hok
  exact ⟨proper_collidingForest, by decide, withinWords_collidingForest, _, _, c, hok, hc,
    by simp [hspans], by decide, helements⟩

end Survey
end GrammarInduction
