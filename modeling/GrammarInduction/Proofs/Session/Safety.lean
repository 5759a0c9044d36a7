import GrammarInduction.Proofs.Ranking.Totals
import GrammarInduction.Proofs.Session.Sample
import GrammarInduction.Proofs.Survey.Completeness

/-!
What cannot go wrong after valid settings and within the words. Every run of a survey is a span,
every candidate has elements and occurs somewhere, and so neither a ranking nor an application of
what was found meets a fault, except that a grouping may collapse its own result without end.
-/
namespace GrammarInduction
namespace Forest

/-- A grouping with labels can only fail to come to an end. -/
theorem eq_endlessCollapse_of_apply {trees : Forest} {g : Grouping} {fault : Fault}
    (hg : g.pattern ≠ []) (h : trees.apply g = .error fault) : fault = .endlessCollapse := by
  rw [apply, if_neg hg] at h
  split at h
  · cases h
  · exact (Except.error.inj h).symm

lemma eq_endlessCollapse_of_applyAll {trees : Forest} {gs : List Grouping} {fault : Fault}
    (hgs : ∀ g ∈ gs, g.pattern ≠ []) (h : trees.applyAll gs = .error fault) :
    fault = .endlessCollapse := by
  induction gs generalizing trees with
  | nil => cases h
  | cons g gs ih =>
    obtain ⟨hg, hgs⟩ := List.forall_mem_cons.mp hgs
    rw [applyAll] at h
    cases hout : trees.apply g with
    | error fault' =>
      rw [hout] at h
      obtain rfl : fault' = fault := Except.error.inj h
      exact eq_endlessCollapse_of_apply hg hout
    | ok out =>
      rw [hout] at h
      exact ih hgs h

end Forest

lemma Candidate.pattern_ne_nil {c : Candidate} (h : c.elements ≠ []) :
    c.grouping.pattern ≠ [] := by
  simpa [Candidate.grouping, Forest.labels] using h

lemma Forest.applyCandidates_ne_emptyPattern {cs : List Candidate}
    (hcs : ∀ c ∈ cs, c.elements ≠ []) (trees : Forest) :
    trees.applyCandidates cs ≠ .error .emptyPattern := by
  intro h
  rw [Forest.applyCandidates_eq] at h
  have hgs : ∀ g ∈ cs.map Candidate.grouping, g.pattern ≠ [] := by
    intro g hg
    obtain ⟨c, hc, rfl⟩ := List.mem_map.mp hg
    exact Candidate.pattern_ne_nil (hcs c hc)
  exact absurd (Forest.eq_endlessCollapse_of_applyAll hgs h) nofun

/-- A run of a node is a span, as long as the settings are valid and nothing overflows. -/
theorem Settings.of_span_of_mem_runs {s : Settings} (hs : s.Valid) {size : Nat}
    (ho : (s.runs size).2 = false) {r : Run} (hr : r ∈ (s.runs size).1) :
    r.start < r.stop ∧ Span.of r.start (r.stop - 1) = .ok r.span := by
  obtain ⟨-, ha, -⟩ := (mem_runs_iff ho).mp hr
  have hlen := hs.pos_of_admits ha
  have hlt : r.start < r.stop := by
    rw [Run.stop]
    omega
  exact ⟨hlt, Span.of_eq_ok_iff.mpr ⟨rfl, Nat.le_sub_one_of_lt hlt⟩⟩

namespace Survey

variable {settings : Settings} {trees : Forest} {tables t : Tables} {s : Survey}

/-- A candidate has elements, and it occurs somewhere. -/
theorem present_of_ofForest_ok (h : ofForest settings trees tables = (.ok s, t)) {c : Candidate}
    (hc : c ∈ s.candidates.values) :
    c.elements ≠ [] ∧ c.sources.isEmpty = false ∧ 0 < c.occurrences := by
  obtain ⟨r, hr⟩ := (Catalogue.mem_values_iff _).mp hc
  have htells := tells_of_ofForest_ok h hr
  obtain ⟨f, rest, hfs, -⟩ := htells.first
  refine ⟨List.length_pos_iff.mp (length_pos_of_ofForest_ok h hr), occurs_of_ofForest_ok h hr, ?_⟩
  rw [htells.occurrences, hfs]
  exact Nat.succ_pos _

/-- Valid settings survey every forest within the words, whatever symbols and names there are. All
runs on the way are spans, all candidates have elements and occur somewhere, their ranking counts
every pair, whatever the settings and the memo of the ranking are, and no application of a candidate
or of a proposal meets a grouping without labels. -/
theorem surveys_meet_no_fault (settings : Settings) (trees : Forest) (tables : Tables)
    (hs : settings.check = .ok settings) (hwords : WithinWords settings trees) :
    ∃ s t, ofForest settings trees tables = (.ok s, t) ∧
      (∀ v ∈ trees.visits, ∀ r ∈ (settings.runs v.size).1,
        r.start < r.stop ∧ Span.of r.start (r.stop - 1) = .ok r.span) ∧
      (∀ c ∈ s.candidates.values,
        c.elements ≠ [] ∧ c.sources.isEmpty = false ∧ 0 < c.occurrences) ∧
      (∀ (other : Settings) (memo : LikenessMemo), ∃ ranking memo',
        Ranking.ofCandidates other s.candidates memo = .ok (ranking, memo') ∧
          ranking.pairsScored + ranking.pairsSkipped =
            s.candidates.size * (s.candidates.size - 1) / 2 ∧
          ∀ e ∈ ranking.proposals, ∀ target : Forest,
            target.applyProposal e.proposal ≠ .error .emptyPattern) ∧
      ∀ c ∈ s.candidates.values, ∀ target : Forest,
        target.applyCandidate c ≠ .error .emptyPattern := by
  have hvalid := (Settings.check_eq_ok_iff.mp hs).2
  have hok := ofForest_of_withinWords tables hvalid hwords
  have hpresent := fun c hc => present_of_ofForest_ok hok (c := c) hc
  refine ⟨_, _, hok, ?_, hpresent, ?_, ?_⟩
  · intro v hv r hr
    exact Settings.of_span_of_mem_runs hvalid (hwords.overflows_eq_false hv) hr
  · intro other memo
    obtain ⟨ranking, memo', heq, haccounts⟩ :=
      Ranking.exists_ofCandidates other (fun c hc => (hpresent c hc).2.1) memo
    refine ⟨ranking, memo', heq, ?_, fun e he target => ?_⟩
    · rw [haccounts.pairs, Catalogue.values, List.length_map]
      rfl
    · exact Forest.applyCandidates_ne_emptyPattern
        (fun c hc => (hpresent c (haccounts.mem e he c hc)).1) target
  · intro c hc target happly
    cases Forest.eq_endlessCollapse_of_apply (Candidate.pattern_ne_nil (hpresent c hc).1) happly

/-- Two trees with a candidate that is kept and one that is dropped. -/
theorem surveys_meet_no_fault_nestedTrees :
    ({} : Settings).check = .ok {} ∧ WithinWords {} nestedTrees ∧
      ∃ s t, ofForest {} nestedTrees {} = (.ok s, t) ∧
        ∀ c ∈ s.candidates.values, ∀ target : Forest,
          target.applyCandidate c ≠ .error .emptyPattern := by
  refine ⟨rfl, withinWords_nestedTrees, ?_⟩
  obtain ⟨s, t, hok, -, -, -, happly⟩ :=
    surveys_meet_no_fault {} nestedTrees {} rfl withinWords_nestedTrees
  exact ⟨s, t, hok, happly⟩

end Survey
end GrammarInduction
