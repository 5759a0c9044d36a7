import GrammarInduction.Proofs.Candidate.Agreement
import GrammarInduction.Proofs.Survey.Numbering

/-!
Surveys under two symbol tables and two supplies of names. Every step of a survey keeps two of
them in agreement: the same counts, the same candidates in the same order, and the same
neighbourhoods once the symbols are resolved. Names never enter.
-/
namespace GrammarInduction

namespace Visit

/-- What stands next to a node is an end of the tree or hidden. -/
def IsFramed (v : Visit) : Prop :=
  (v.left = .start ∨ v.left = .hidden) ∧ (v.right = .stop ∨ v.right = .hidden)

lemma IsFramed.follow? {v w : Visit} {path : List Nat} (hv : v.IsFramed)
    (h : v.follow? path = some w) : w.IsFramed := by
  induction path generalizing v with
  | nil =>
    obtain rfl := Option.some.inj h
    exact hv
  | cons i path ih =>
    obtain ⟨u, hu, hw⟩ := Option.bind_eq_some_iff.mp h
    obtain ⟨hleft, hright⟩ := child?_frame hu
    refine ih ⟨?_, ?_⟩ hw
    · rw [hleft]
      split
      · exact hv.1
      · exact .inr rfl
    · rw [hright]
      split
      · exact hv.2
      · exact .inr rfl

lemma isFramed_of_mem_visits {trees : Forest} {v : Visit} (h : v ∈ trees.visits) :
    v.IsFramed := by
  obtain ⟨k, n, path, -, hp⟩ := Forest.mem_visits_iff.mp h
  exact IsFramed.follow? ⟨.inl rfl, .inl rfl⟩ hp

section

variable {t t' : SymbolTable} {v : Visit}

lemma agrees_nearest {l l' r r' : Side} (hl : Side.Agrees t t' l l')
    (hr : Side.Agrees t t' r r') :
    Neighbourhood.Agrees t t' (.nearest l r) (.nearest l' r') where
  left := by
    rw [Neighbourhood.nearest, Neighbourhood.nearest, Neighbourhood.lastOf, Neighbourhood.lastOf,
      hl.length_eq]
    exact List.forall₂_drop _ hl
  right := List.forall₂_take _ hr

lemma agrees_neighbourhood (hv : v.IsFramed) {symbols symbols' : List Neighbour}
    (hs : Side.Agrees t t' symbols symbols') (r : Run) :
    Neighbourhood.Agrees t t' (v.neighbourhood symbols r) (v.neighbourhood symbols' r) := by
  have hleft : Neighbour.Agrees t t' v.left v.left := by
    rcases hv.1 with h | h <;> rw [h]
    · exact .start
    · exact .hidden
  have hright : Neighbour.Agrees t t' v.right v.right := by
    rcases hv.2 with h | h <;> rw [h]
    · exact .stop
    · exact .hidden
  have hedge : ∀ {n : Neighbour} (p : Prop) [Decidable p], Neighbour.Agrees t t' n n →
      Side.Agrees t t' (if p then [n] else []) (if p then [n] else []) := by
    intro n p _ hn
    split
    · exact .cons hn .nil
    · exact .nil
  rw [neighbourhood, neighbourhood, hs.length_eq]
  refine agrees_nearest (List.rel_append (hedge _ hleft) ?_) (List.rel_append ?_ (hedge _ hright))
  · exact List.forall₂_drop _ (List.forall₂_take _ hs)
  · exact List.forall₂_drop _ (List.forall₂_take _ hs)

end

end Visit

namespace SymbolTable

/-- Symbols that resolve to the same labels agree. -/
theorem agrees_of_resolve {t t' : SymbolTable} {ids ids' : List SymbolId} {labels : List String}
    (h : List.Forall₂ (fun i label => t.resolve i = .ok label) ids labels)
    (h' : List.Forall₂ (fun i label => t'.resolve i = .ok label) ids' labels) :
    Side.Agrees t t' (ids.map .symbol) (ids'.map .symbol) := by
  induction h generalizing ids' with
  | nil =>
    cases h'
    exact .nil
  | cons hi _ ih =>
    cases h' with
    | cons hi' hrest => exact .cons (.symbol hi hi') (ih hrest)

end SymbolTable

/-- Settings that differ in nothing but the number of candidates from which on work is done in
parallel. -/
def Settings.Agrees (a b : Settings) : Prop :=
  a = { b with parallelThreshold := a.parallelThreshold }

lemma Settings.Agrees.runs_eq {a b : Settings} (h : a.Agrees b) : a.runs = b.runs := by
  have hfrom : ∀ (threshold size : Nat) (starts : List Nat),
      ({ b with parallelThreshold := threshold } : Settings).runsFrom size starts =
        b.runsFrom size starts := by
    intro threshold size starts
    induction starts with
    | nil => rfl
    | cons i is ih =>
      rw [runsFrom, runsFrom, ih]
      rfl
  rw [h]
  funext size
  exact hfrom _ size _

namespace Survey

/-- Two surveys on their way agree, each with its own symbols. -/
structure Progress.Agrees (p p' : Progress) : Prop where
  distinct : p.tables.symbols.Distinct
  distinct' : p'.tables.symbols.Distinct
  tally : p.tally = p'.tally
  wrappers : p.wrappers = p'.wrappers
  unbalancedTexts : p.unbalancedTexts = p'.unbalancedTexts
  candidates : Catalogue.Related Eq (Candidate.Agrees p.tables.symbols p'.tables.symbols)
    p.candidates.entries p'.candidates.entries

lemma distinct_ofForest (settings : Settings) (trees : Forest) {tables : Tables}
    (h : tables.symbols.Distinct) : (ofForest settings trees tables).2.symbols.Distinct := by
  have hall : ∀ (vs : List Visit) (p : Progress), p.tables.symbols.Distinct →
      (vs.foldl (Progress.enter settings) p).tables.symbols.Distinct := by
    intro vs
    induction vs with
    | nil => exact fun p hp => hp
    | cons v vs ih =>
      intro p hp
      refine ih _ ?_
      rw [Progress.symbols_enter]
      exact hp.internAll v.labels
  rw [tables_ofForest]
  exact hall _ _ h

namespace Progress.Agrees

variable {p p' : Progress}

lemma start {tables tables' : Tables} (h : tables.symbols.Distinct)
    (h' : tables'.symbols.Distinct) : Progress.Agrees { tables } { tables := tables' } where
  distinct := h
  distinct' := h'
  tally := rfl
  wrappers := rfl
  unbalancedTexts := rfl
  candidates := .nil

lemma preservesEq_eq {α : Type} : PreservesEq (Eq : α → α → Prop) := by
  rintro a _ b _ rfl rfl
  exact Iff.rfl

/-- Both surveys know a run, or both find it for the first time. -/
theorem candidateFor (h : p.Agrees p') (v : Visit) (r : Run) (rendered : String) :
    Candidate.Agrees p.tables.symbols p'.tables.symbols (p.candidateFor v r rendered).1
      (p'.candidateFor v r rendered).1 := by
  have hget := h.candidates.find? preservesEq_eq (rfl : rendered = rendered)
  have hsize : p.candidates.size = p'.candidates.size := h.candidates.length_eq
  change Option.Rel _ (p.candidates.get? rendered) (p'.candidates.get? rendered) at hget
  rw [Progress.candidateFor, Progress.candidateFor]
  revert hget
  cases p.candidates.get? rendered <;> cases p'.candidates.get? rendered <;> intro hget
  · rw [hsize]
    exact .new _ _ _ _ _ _ _
  · cases hget
  · cases hget
  · cases hget
    assumption

lemma record (h : p.Agrees p') {f : Find} (hf : f.visit.IsFramed)
    {symbols symbols' : List Neighbour}
    (hs : Side.Agrees p.tables.symbols p'.tables.symbols symbols symbols') :
    (p.record f.visit symbols f.run).Agrees (p'.record f.visit symbols' f.run) where
  distinct := by rw [tables_record]; exact h.distinct
  distinct' := by rw [tables_record]; exact h.distinct'
  tally := by rw [tally_record, tally_record, h.tally]
  wrappers := by rw [wrappers_record, wrappers_record, h.wrappers]
  unbalancedTexts := by rw [unbalancedTexts_record, unbalancedTexts_record, h.unbalancedTexts]
  candidates := by
    have hc := (h.candidateFor f.visit f.run f.rendered).record h.distinct h.distinct' f.site f.span
      (Visit.agrees_neighbourhood hf hs f.run) f.visit.depth
    rw [candidates_record, candidates_record, tables_record, tables_record]
    exact h.candidates.alter preservesEq_eq rfl fun _ _ _ => hc

lemma consider (h : p.Agrees p') {v : Visit} (hv : v.IsFramed)
    {symbols symbols' : List Neighbour}
    (hs : Side.Agrees p.tables.symbols p'.tables.symbols symbols symbols') (r : Run) :
    (Progress.consider v symbols p r).Agrees (Progress.consider v symbols' p' r) := by
  have h₁ : ({ p with tally.spansConsidered := p.tally.spansConsidered + 1 } : Progress).Agrees
      { p' with tally.spansConsidered := p'.tally.spansConsidered + 1 } :=
    { h with tally := by rw [h.tally] }
  cases hverdict : v.verdict r with
  | loneTerminal =>
    rw [Progress.consider, Progress.consider, hverdict]
    exact { h₁ with tally := by simp only [h.tally] }
  | unbalanced text =>
    rw [Progress.consider, Progress.consider, hverdict]
    exact { h₁ with
      tally := by simp only [h.tally]
      unbalancedTexts := by simp only [h.unbalancedTexts] }
  | admissible =>
    rw [Progress.consider, Progress.consider, hverdict]
    exact h₁.record (f := ⟨v, r⟩) hv hs

lemma considerAll (h : p.Agrees p') {v : Visit} (hv : v.IsFramed)
    {symbols symbols' : List Neighbour}
    (hs : Side.Agrees p.tables.symbols p'.tables.symbols symbols symbols') (rs : List Run) :
    (rs.foldl (Progress.consider v symbols) p).Agrees
      (rs.foldl (Progress.consider v symbols') p') := by
  induction rs generalizing p p' with
  | nil => exact h
  | cons r rs ih =>
    refine ih (h.consider hv hs r) ?_
    rw [symbols_consider, symbols_consider]
    exact hs

/-- Both surveys intern the children of a node and look at the same runs. -/
theorem enter (h : p.Agrees p') {settings settings' : Settings}
    (hsettings : settings.runs = settings'.runs) {v : Visit} (hv : v.IsFramed) :
    (p.enter settings v).Agrees (p'.enter settings' v) := by
  have hw := p.tables.symbols.within_internAll v.labels
  have hw' := p'.tables.symbols.within_internAll v.labels
  have hinterned : ({ p with
      tally.nodesVisited := p.tally.nodesVisited + 1
      tables := { p.tables with symbols := (p.tables.symbols.internAll v.labels).2 } } :
        Progress).Agrees { p' with
      tally.nodesVisited := p'.tally.nodesVisited + 1
      tables := { p'.tables with symbols := (p'.tables.symbols.internAll v.labels).2 } } :=
    { h with
      distinct := h.distinct.internAll v.labels
      distinct' := h.distinct'.internAll v.labels
      tally := by rw [h.tally]
      candidates := h.candidates.imp fun _ _ he => ⟨he.1, he.2.mono hw hw'⟩ }
  rw [Progress.enter, Progress.enter, hsettings]
  exact hinterned.considerAll hv (SymbolTable.agrees_of_resolve
    (p.tables.symbols.resolve_internAll v.labels) (p'.tables.symbols.resolve_internAll v.labels)) _

lemma enterAll (h : p.Agrees p') {settings settings' : Settings}
    (hsettings : settings.runs = settings'.runs) {vs : List Visit} (hvs : ∀ v ∈ vs, v.IsFramed) :
    (vs.foldl (Progress.enter settings) p).Agrees (vs.foldl (Progress.enter settings') p') := by
  induction vs generalizing p p' with
  | nil => exact h
  | cons v vs ih =>
    obtain ⟨hv, hvs⟩ := List.forall_mem_cons.mp hvs
    exact ih (h.enter hsettings hv) hvs

end Progress.Agrees

/-- Two surveys agree, each with its own symbols: the same counts and the same candidates. -/
structure Agrees (t t' : SymbolTable) (s s' : Survey) : Prop where
  tally : s.tally = s'.tally
  keys : s.candidates.keys = s'.candidates.keys
  candidates : ∀ r c c', s.candidates.get? r = some c → s'.candidates.get? r = some c' →
    c.Agrees t t' c'
  suppressed : s.suppressed = s'.suppressed
  unbalancedTexts : s.unbalancedTexts = s'.unbalancedTexts

lemma Progress.Agrees.finish {p p' : Progress} (h : p.Agrees p') :
    Survey.Agrees p.tables.symbols p'.tables.symbols p.finish p'.finish := by
  have hwrapper : ∀ {e e' : String × Candidate}, e.1 = e'.1 ∧
      Candidate.Agrees p.tables.symbols p'.tables.symbols e.2 e'.2 →
      p.isWrapper e.1 e.2 = p'.isWrapper e'.1 e'.2 := by
    rintro ⟨r, c⟩ ⟨_, c'⟩ ⟨rfl, hc⟩
    rw [isWrapper, isWrapper, h.wrappers, hc.occurrences]
  have hdropped : (p.candidates.filter p.isWrapper).keys =
      (p'.candidates.filter p'.isWrapper).keys := by
    refine Catalogue.Related.keys_eq (List.rel_filter ?_ h.candidates)
    intro e e' he
    dsimp only
    rw [hwrapper he]
  have hkept : Catalogue.Related Eq (Candidate.Agrees p.tables.symbols p'.tables.symbols)
      p.finish.candidates.entries p'.finish.candidates.entries := by
    refine List.rel_filter ?_ h.candidates
    intro e e' he
    dsimp only
    rw [hwrapper he]
  refine ⟨?_, hkept.keys_eq, ?_, hdropped, h.unbalancedTexts⟩
  · simp only [Progress.finish, h.tally, hdropped]
  · intro r c c' hc hc'
    have hget := hkept.find? preservesEq_eq (rfl : r = r)
    change Option.Rel _ (p.finish.candidates.get? r) (p'.finish.candidates.get? r) at hget
    rw [hc, hc'] at hget
    cases hget
    assumption

/-- Surveys of a forest agree when their settings do: both fail alike, or both succeed. -/
theorem agrees_ofForest {settings settings' : Settings} (hsettings : settings.Agrees settings')
    (trees : Forest) {tables tables' : Tables} (h : tables.symbols.Distinct)
    (h' : tables'.symbols.Distinct) :
    (∃ failure, (ofForest settings trees tables).1 = .error failure ∧
      (ofForest settings' trees tables').1 = .error failure) ∨
    ∃ s s', (ofForest settings trees tables).1 = .ok s ∧
      (ofForest settings' trees tables').1 = .ok s' ∧
      Agrees (ofForest settings trees tables).2.symbols (ofForest settings' trees tables').2.symbols
        s s' := by
  have hviolation : settings.violation? = settings'.violation? := by
    rw [hsettings]
    rfl
  have hoverflows : overflows settings = overflows settings' := by
    funext v
    rw [overflows, overflows, hsettings.runs_eq]
  cases hv : settings'.violation? with
  | some violation =>
    have hc : settings.check = .error (.invalidSettings violation) := by
      rw [Settings.check, hviolation, hv]
    have hc' : settings'.check = .error (.invalidSettings violation) := by
      rw [Settings.check, hv]
    exact .inl ⟨_, by rw [ofForest, hc], by rw [ofForest, hc']⟩
  | none =>
    have hvalid' : settings'.Valid := (settings'.violation?_eq_none_iff).mp hv
    have hvalid : settings.Valid := (settings.violation?_eq_none_iff).mp (hviolation.trans hv)
    by_cases ho : ∃ v ∈ trees.visits, overflows settings v = true
    · obtain ⟨v, hmem, ho⟩ := ho
      exact .inl ⟨_, ofForest_of_overflow tables hvalid hmem ho,
        ofForest_of_overflow tables' hvalid' hmem (hoverflows ▸ ho)⟩
    · have hno : ∀ v ∈ trees.visits, overflows settings v = false := fun v hmem =>
        (Bool.not_eq_true _).mp fun hov => ho ⟨v, hmem, hov⟩
      have hframed : ∀ v ∈ trees.visits, v.IsFramed := fun v hmem =>
        Visit.isFramed_of_mem_visits hmem
      have hagrees := (Progress.Agrees.start h h').enterAll hsettings.runs_eq hframed
      rw [ofForest_of_no_overflow tables hvalid hno,
        ofForest_of_no_overflow tables' hvalid' (hoverflows ▸ hno)]
      exact .inr ⟨_, _, rfl, rfl, hagrees.finish⟩

end Survey
end GrammarInduction
