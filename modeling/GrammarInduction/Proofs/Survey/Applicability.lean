import GrammarInduction.Proofs.Forest.Growth
import GrammarInduction.Proofs.Survey.Spans

/-!
Every candidate can be applied. The elements of a candidate stand somewhere in the forest that was
surveyed, whatever other runs share their joined labels, and an application reaches them: the nodes
below are changed first, but their labels are kept.
-/
namespace GrammarInduction
namespace Survey

variable {settings : Settings} {trees : Forest} {tables t : Tables} {s : Survey} {r : String}
  {c : Candidate}

/-- The pattern of a candidate occurs in the forest. -/
theorem usesRule_pattern_of_ofForest_ok (hproper : ∀ tree ∈ trees, tree.Proper)
    (h : ofForest settings trees tables = (.ok s, t)) (hc : s.candidates.get? r = some c) :
    trees.UsesRule fun _ ls => c.grouping.pattern <:+: ls := by
  obtain ⟨p, hp, -, hel, hlen, hpos⟩ := exists_place_of_ofForest_ok h hc
  obtain ⟨n, hn⟩ := hp.atSite
  have hchildren := Place.children_of_descend? hn
  have hwithin : c.elements <:+: n.children := by
    rw [← hel, Place.elements, Run.elements, hchildren]
    exact (List.take_prefix _ _).isInfix.trans (List.drop_suffix _ _).isInfix
  have hne : n.children ≠ [] := by
    rintro hnil
    rw [hnil, List.infix_nil] at hwithin
    rw [Candidate.length, hwithin] at hlen
    exact absurd hlen (Nat.ne_of_gt hpos)
  exact Forest.usesRule_of_descend? hproper hn hne (hwithin.map Node.label)

/-- Valid settings survey every forest within the words. Where terminals hold no children, every
candidate of the survey can be applied to the forest, unless it would replace a label by itself: all
loops over child lists end, and there are more nodes with the name of the candidate than before. -/
theorem candidates_applicable (settings : Settings) (trees : Forest) (tables : Tables)
    (hproper : ∀ tree ∈ trees, tree.Proper) (hs : settings.check = .ok settings)
    (hw : WithinWords settings trees) :
    ∃ s t, ofForest settings trees tables = (.ok s, t) ∧
      ∀ c ∈ s.candidates.values, c.grouping.pattern ≠ [c.id] →
        ∃ out, trees.applyCandidate c = .ok out ∧
          List.Forall₂ c.grouping.RewritesTo trees out ∧
          Node.countOf c.id trees < Node.countOf c.id out ∧ out ≠ trees := by
  have hok := ofForest_of_withinWords tables (Settings.check_eq_ok_iff.mp hs).2 hw
  refine ⟨_, _, hok, fun c hc hself => ?_⟩
  obtain ⟨r, hr⟩ := (Catalogue.mem_values_iff _).mp hc
  have hne := pattern_ne_nil_of_ofForest_ok hok hr
  obtain ⟨out, hout, hmore⟩ := Grouping.exists_apply_of_usesRule hne hself
    (usesRule_pattern_of_ofForest_ok hproper hok hr)
  refine ⟨out, hout, ?_, hmore, ?_⟩
  · exact (Grouping.forall₂_rewritesTo_iff hne).mpr (Forest.apply_eq_ok_iff.mp hout).2
  · rintro rfl
    exact Nat.lt_irrefl _ hmore

/-- A forest that has the name of its first candidate already, as the first element of that one. -/
def stackingForest : Forest := [.branch "START" (["t0", "b", "b"].map .terminal)]

/-- The forest after the application, in which a new node was the beginning of another run. -/
def stackedForest : Forest :=
  [.branch "START"
    [.branch "t0" [.branch "t0" [.terminal "t0", .terminal "b"], .terminal "b"]]]

theorem candidates_applicable_stackingForest :
    (∀ tree ∈ stackingForest, tree.Proper) ∧ ({} : Settings).check = .ok {} ∧
      WithinWords {} stackingForest ∧
      ∃ s t, ofForest {} stackingForest {} = (.ok s, t) ∧
        ∃ c ∈ s.candidates.values, c.grouping = ⟨["t0", "b"], "t0"⟩ ∧
          c.grouping.pattern ≠ [c.id] ∧ stackingForest.applyCandidate c = .ok stackedForest ∧
          Node.countOf c.id stackingForest < Node.countOf c.id stackedForest := by
  have hproper : ∀ tree ∈ stackingForest, tree.Proper := fun tree ht =>
    List.mem_singleton.mp ht ▸ .flat _ _
  have hw : WithinWords {} stackingForest := withinWords_of_le (by decide)
  obtain ⟨s, t, hok, happly⟩ := candidates_applicable {} stackingForest {} hproper rfl hw
  have hfirst : (s.candidates.get? "t0b").map Candidate.grouping =
      some ⟨["t0", "b"], "t0"⟩ := by
    obtain ⟨rfl, -⟩ := eq_finish_of_ofForest_ok hok
    decide +kernel
  obtain ⟨c, hc, hgrouping⟩ := Option.map_eq_some_iff.mp hfirst
  have hmem : c ∈ s.candidates.values := (Catalogue.mem_values_iff _).mpr ⟨_, hc⟩
  have hid : c.id = "t0" := congrArg Grouping.id hgrouping
  have hself : c.grouping.pattern ≠ [c.id] := by
    rw [hgrouping, hid]
    decide
  obtain ⟨out, hout, -, hmore, -⟩ := happly c hmem hself
  have hstacked : stackingForest.applyCandidate c = .ok stackedForest := by
    rw [Forest.applyCandidate, hgrouping]
    rfl
  obtain rfl : out = stackedForest := Except.ok.inj (hout.symm.trans hstacked)
  exact ⟨hproper, rfl, hw, s, t, hok, c, hmem, hgrouping, hself, hstacked, hmore⟩

end Survey
end GrammarInduction
