import GrammarInduction.Proofs.Session.Names
import GrammarInduction.Proofs.Survey.Surroundings

/-!
The neighbourhoods that a session records, and how long they can be read. A survey counts each
admissible run in its true neighbourhood. The symbols in it resolve to the labels that they stand
for until the session is reset, whatever else is done with it.
-/
namespace GrammarInduction

namespace Session

/-- Only a reset takes symbols away. -/
theorem within_after (s : Session) {op : Operation} (hop : op ≠ .reset) :
    s.tables.symbols.Within (s.after op).tables.symbols := by
  cases op with
  | setBounds minLen maxLen =>
    obtain ⟨settings, hs, -⟩ := s.exists_after_setBounds minLen maxLen
    rw [hs]
    exact .refl _
  | clearMemo => exact .refl _
  | reset => exact absurd rfl hop
  | seed examples => exact .refl _
  | survey trees => exact Survey.within_ofForest s.settings trees s.tables
  | rank survey =>
    obtain ⟨memo, hs⟩ := s.exists_after_rank survey
    rw [hs]
    exact .refl _
  | applyCandidate trees candidate => exact .refl _
  | applyProposal trees proposal => exact .refl _

lemma within_afterAll (s : Session) {ops : List Operation} (hops : .reset ∉ ops) :
    s.tables.symbols.Within (s.afterAll ops).tables.symbols := by
  induction ops generalizing s with
  | nil => exact .refl _
  | cons op ops ih =>
    obtain ⟨hop, hops⟩ := not_or.mp (List.mem_cons.not.mp hops)
    exact (s.within_after (Ne.symm hop)).trans (ih (s.after op) hops)

end Session

open Survey in
/-- Whatever becomes of a survey, each admissible run that it comes to counts once, for the
neighbourhood that it truly has; and the symbols of the children around it resolve to their labels
after any operations without a reset. A survey that finishes comes to all admissible runs, to each
of them once, and its candidates are as they were found. -/
theorem survey_records_neighbourhoods {s s' : Session} {trees : Forest}
    {result : Except Failure Survey} (h : s.survey trees = (result, s')) :
    (∀ p ∈ placesEntered s.settings trees,
      (∃ c, (found s.settings trees s.tables).get? (p.rendered trees) = some c ∧
        ∀ n, c.multiplicity n = (placesEntered s.settings trees).countP fun q =>
          q.rendered trees = p.rendered trees ∧ q.neighbourhood s'.tables.symbols trees = n) ∧
      ∀ ops, Operation.reset ∉ ops → ∀ label ∈ Forest.labels (p.children trees),
        (s'.afterAll ops).tables.symbols.resolve (s'.tables.symbols.numberOf label) = .ok label) ∧
    ∀ survey, result = .ok survey →
      (placesEntered s.settings trees).Nodup ∧
      (∀ p : Place, p ∈ placesEntered s.settings trees ↔ p.Admissible s.settings trees) ∧
      ∀ r c, survey.candidates.get? r = some c →
        (found s.settings trees s.tables).get? r = some c := by
  obtain ⟨rfl, rfl⟩ := Prod.mk.inj h
  constructor
  · intro p hp
    obtain ⟨hcount, hknown⟩ := counts_neighbourhoods s.settings trees s.tables hp
    refine ⟨hcount, fun ops hops label hlabel => ?_⟩
    have hresolve := SymbolTable.resolve_numberOf (hknown label hlabel)
    exact (Session.within_afterAll _ hops).resolve hresolve
  · intro survey hok
    have hfinished : ofForest s.settings trees s.tables =
        (.ok survey, (ofForest s.settings trees s.tables).2) := Prod.ext hok rfl
    obtain ⟨hnodup, hplaces⟩ := placesEntered_of_ofForest_ok hfinished
    exact ⟨hnodup, hplaces, fun r c hc => get?_found_of_get? hfinished hc⟩

/-- A tree whose first child has siblings only on its right. -/
def innerForest : Forest :=
  [.branch "START" [.branch "t1" (["a", "b", "c", "d", "e", "f"].map .terminal), .terminal "g"]]

/-- The last two children of that child: four of the five neighbours on the left are kept, and on
the right there is only its edge. -/
def innerPlace : Survey.Place := ⟨⟨0, [0]⟩, ⟨4, 2⟩⟩

open Survey in
theorem survey_records_neighbourhoods_innerForest :
    ∃ result s', ({} : Session).survey innerForest = (result, s') ∧
      innerPlace ∈ placesEntered {} innerForest ∧
      innerPlace.neighbourhood s'.tables.symbols innerForest =
        ⟨[.symbol 2, .symbol 3, .symbol 4, .symbol 5], [.hidden]⟩ ∧
      (∃ c, (found {} innerForest {}).get? "ef" = some c ∧
        c.multiplicity ⟨[.symbol 2, .symbol 3, .symbol 4, .symbol 5], [.hidden]⟩ = 1) ∧
      (s'.afterAll [.survey innerForest, .clearMemo]).tables.symbols.resolve 5 = .ok "d" := by
  have hplace : innerPlace ∈ placesEntered {} innerForest := by decide +kernel
  have hops : Operation.reset ∉ [Operation.survey innerForest, .clearMemo] := by simp
  have hnumber : (({} : Session).survey innerForest).2.tables.symbols.numberOf "d" = 5 := by
    decide +kernel
  have hsurvey : ({} : Session).survey innerForest = (_, _) := rfl
  obtain ⟨hall, -⟩ := survey_records_neighbourhoods hsurvey
  obtain ⟨⟨c, hc, hcount⟩, hlater⟩ := hall innerPlace hplace
  refine ⟨_, _, hsurvey, hplace, by decide +kernel, ⟨c, hc, ?_⟩, ?_⟩
  · rw [hcount]
    decide +kernel
  · exact hnumber ▸ hlater _ hops "d" (by decide)

end GrammarInduction
