import Mathlib.Algebra.GroupWithZero.Nat
import GrammarInduction.Proofs.Survey.Runs
import GrammarInduction.Proofs.SymbolTable.Interning

/-!
What a survey knows of the runs that it found so far. A property that every find keeps holds at its
end of all of them: so a candidate tells all finds of its joined labels; each find is recorded once,
and none is lost.
-/
namespace GrammarInduction

namespace Candidate

def spansAt (c : Candidate) (site : Site) : List Span := (c.sources.get? site).getD []

end Candidate

namespace SymbolTable

/-- The neighbour that a sibling with this label is. -/
def neighbour (t : SymbolTable) (label : String) : Neighbour := .symbol (t.numberOf label)

end SymbolTable

namespace Catalogue

variable {κ : Type _} {ν : Type _} [DecidableEq κ]

lemma sum_map_snd_alter (g : ν → Nat) (k : κ) (f : Option ν → ν) (es : List (κ × ν)) :
    (((alter k f es).map Prod.snd).map g).sum + (find? k es).elim 0 g =
      ((es.map Prod.snd).map g).sum + g (f (find? k es)) := by
  induction es with
  | nil => simp [alter, find?]
  | cons e es ih =>
    by_cases hk : e.1 = k
    · simp only [alter, find?, hk, if_true, List.map_cons, List.sum_cons, Option.elim_some]
      omega
    · simp only [alter, find?, hk, if_false, List.map_cons, List.sum_cons]
      omega

/-- A sum over the values gains what the new value under a key counts, and loses what the old one
counted, if there was one. -/
theorem sum_values_upsert (g : ν → Nat) (c : Catalogue κ ν) (k : κ) (f : Option ν → ν) :
    ((c.upsert k f).values.map g).sum + (c.get? k).elim 0 g =
      (c.values.map g).sum + g (f (c.get? k)) := sum_map_snd_alter g k f c.entries

/-- One more under a key is one more in all. -/
theorem sum_values_add_one (c : Catalogue κ Nat) (k : κ) :
    (c.upsert k fun old => old.getD 0 + 1).values.sum = c.values.sum + 1 := by
  have h := c.sum_values_upsert id k fun old => old.getD 0 + 1
  rw [List.map_id, List.map_id] at h
  cases hk : c.get? k with
  | none | some n =>
    rw [hk] at h
    simp only [Option.elim_none, Option.elim_some, Option.getD_none, Option.getD_some, id_eq] at h
    omega

end Catalogue

namespace Survey

/-- An admissible run with the visit at its site. -/
structure Find where
  visit : Visit
  run : Run

namespace Find

def elements (f : Find) : List Node := f.visit.elements f.run

def rendered (f : Find) : String := Forest.rendered f.elements

def site (f : Find) : Site := f.visit.site

def span (f : Find) : Span := f.run.span

def isWhole (f : Find) : Bool := f.visit.isWhole f.run

end Find

def findsAt (settings : Settings) (v : Visit) : List Find :=
  ((settings.runs v.size).1.filter fun r => v.verdict r = .admissible).map (Find.mk v)

/-- The admissible runs of a forest, in the order of the survey. -/
def finds (settings : Settings) (trees : Forest) : List Find :=
  trees.visits.flatMap (findsAt settings)

end Survey

namespace Candidate
open Survey

/-- A candidate tells these finds and no others: the first one gave it its elements, and each
one counts once, at its site and in its neighbourhood. -/
structure Tells (c : Candidate) (fs : List Find) : Prop where
  first : ∃ f rest, fs = f :: rest ∧ c.elements = f.elements
  occurrences : c.occurrences = fs.length
  neighbourhoods : c.neighbourhoods.values.sum = fs.length
  spans : ∀ site, c.spansAt site = (fs.filter fun f => f.site = site).map Find.span
  sites : ∀ site, site ∈ c.sources.keys ↔ ∃ f ∈ fs, f.site = site

lemma neighbourhoodTotal_eq_sum (c : Candidate) :
    c.neighbourhoodTotal = c.neighbourhoods.values.sum := List.sum_eq_foldl.symm

@[simp] lemma spansAt_record (c : Candidate) (s site : Site) (r : Span) (n : Neighbourhood)
    (d : Nat) :
    (c.record s r n d).spansAt site = c.spansAt site ++ if site = s then [r] else [] := by
  by_cases h : site = s <;> simp [spansAt, record, addSource, addNeighbourhood, h]

lemma mem_sources_record (c : Candidate) {s site : Site} {r : Span} {n : Neighbourhood}
    {d : Nat} :
    site ∈ (c.record s r n d).sources.keys ↔ site = s ∨ site ∈ c.sources.keys := by
  simp only [record, addSource, addNeighbourhood, Catalogue.mem_keys_iff, Catalogue.get?_upsert]
  by_cases h : site = s <;> simp [h]

lemma sum_neighbourhoods_record (c : Candidate) (s : Site) (r : Span) (n : Neighbourhood)
    (d : Nat) :
    (c.record s r n d).neighbourhoods.values.sum = c.neighbourhoods.values.sum + 1 :=
  Catalogue.sum_values_add_one _ _

/-- A candidate that was just made tells the find that it is recorded for. -/
theorem tells_record_new (id : String) (seq : Nat) (f : Find) (n : Neighbourhood) (d e : Nat) :
    (({ id, elements := f.elements, depth := d, seq } : Candidate).record
      f.site f.span n e).Tells [f] where
  first := ⟨f, [], rfl, rfl⟩
  occurrences := rfl
  neighbourhoods := by rw [sum_neighbourhoods_record]; rfl
  spans site := by
    rw [spansAt_record]
    by_cases h : f.site = site
    · simp [spansAt, h]
    · simp [spansAt, h, Ne.symm h]
  sites site := by
    rw [mem_sources_record]
    simp [Catalogue.keys, Catalogue.empty, eq_comm]

/-- A candidate tells one more find after it is recorded. -/
theorem Tells.record {c : Candidate} {fs : List Find} (h : c.Tells fs) (f : Find)
    (n : Neighbourhood) (d : Nat) : (c.record f.site f.span n d).Tells (fs ++ [f]) where
  first := by
    obtain ⟨g, rest, rfl, he⟩ := h.first
    exact ⟨g, rest ++ [f], rfl, he⟩
  occurrences := by rw [occurrences_record, h.occurrences, List.length_append]; rfl
  neighbourhoods := by
    rw [sum_neighbourhoods_record, h.neighbourhoods, List.length_append]; rfl
  spans site := by
    rw [spansAt_record, h.spans, List.filter_append, List.map_append]
    by_cases hs : f.site = site
    · simp [hs]
    · simp [hs, Ne.symm hs]
  sites site := by
    rw [mem_sources_record, h.sites]
    simp only [List.mem_append, List.mem_singleton, or_and_right, exists_or, exists_eq_left]
    rw [or_comm, eq_comm]

lemma Tells.rendered {c : Candidate} {fs : List Find} (h : c.Tells fs) {r : String}
    (hr : ∀ f ∈ fs, f.rendered = r) : c.rendered = r := by
  obtain ⟨f, rest, rfl, he⟩ := h.first
  rw [Candidate.rendered, he]
  exact hr f (by simp)

end Candidate

namespace Survey.Progress

def findsOf (r : String) (fs : List Find) : List Find := fs.filter fun f => f.rendered = r

lemma findsOf_append (r : String) (fs gs : List Find) :
    findsOf r (fs ++ gs) = findsOf r fs ++ findsOf r gs := List.filter_append _ _

lemma mem_findsOf {r : String} {fs : List Find} {f : Find} :
    f ∈ findsOf r fs ↔ f ∈ fs ∧ f.rendered = r := by simp [findsOf]

lemma findsOf_concat_self (fs : List Find) (f : Find) :
    findsOf f.rendered (fs ++ [f]) = findsOf f.rendered fs ++ [f] := by simp [findsOf]

lemma findsOf_concat_of_ne {r : String} {f : Find} (h : r ≠ f.rendered) (fs : List Find) :
    findsOf r (fs ++ [f]) = findsOf r fs := by simp [findsOf, Ne.symm h]

/-- A survey on its way reflects the finds that it made. -/
structure Reflects (p : Progress) (done : List Find) : Prop where
  known : ∀ r, r ∈ p.candidates.keys ↔ findsOf r done ≠ []
  tells : ∀ r c, p.candidates.get? r = some c → c.Tells (findsOf r done)
  wrappers : ∀ r, (p.wrappers.get? r).getD 0 = (findsOf r done).countP Find.isWhole

lemma reflects_start (tables : Tables) : ({ tables } : Progress).Reflects [] where
  known r := by simp [findsOf, Catalogue.keys, Catalogue.empty]
  tells r c h := by simp at h
  wrappers r := by simp [findsOf]

def recorded (p : Progress) (f : Find) (symbols : List Neighbour) : Candidate :=
  (p.candidateFor f.visit f.run f.rendered).1.record f.site f.span
    (f.visit.neighbourhood symbols f.run) f.visit.depth

lemma candidates_record (p : Progress) (f : Find) (symbols : List Neighbour) :
    (p.record f.visit symbols f.run).candidates =
      p.candidates.insert f.rendered (p.recorded f symbols) := by
  by_cases h : f.visit.isWhole f.run = true <;> simp only [record, h] <;> rfl

lemma wrappers_record (p : Progress) (f : Find) (symbols : List Neighbour) :
    (p.record f.visit symbols f.run).wrappers =
      if f.isWhole then p.wrappers.upsert f.rendered fun old => old.getD 0 + 1
      else p.wrappers := by
  by_cases h : f.visit.isWhole f.run = true <;> simp only [record, Find.isWhole, h] <;> rfl

lemma tables_record (p : Progress) (f : Find) (symbols : List Neighbour) :
    (p.record f.visit symbols f.run).tables =
      { p.tables with names := (p.candidateFor f.visit f.run f.rendered).2 } := by
  by_cases h : f.visit.isWhole f.run = true <;> simp only [record, h] <;> rfl

lemma tally_record (p : Progress) (f : Find) (symbols : List Neighbour) :
    (p.record f.visit symbols f.run).tally = p.tally := by
  by_cases h : f.visit.isWhole f.run = true <;> simp only [record, h] <;> rfl

lemma unbalancedTexts_record (p : Progress) (f : Find) (symbols : List Neighbour) :
    (p.record f.visit symbols f.run).unbalancedTexts = p.unbalancedTexts := by
  by_cases h : f.visit.isWhole f.run = true <;> simp only [record, h] <;> rfl

lemma candidateFor_known {p : Progress} {f : Find} {c : Candidate}
    (h : p.candidates.get? f.rendered = some c) :
    p.candidateFor f.visit f.run f.rendered = (c, p.tables.names) := by
  simp [candidateFor, h]

lemma candidateFor_new {p : Progress} {f : Find} (h : p.candidates.get? f.rendered = none) :
    p.candidateFor f.visit f.run f.rendered =
      ({ id := p.tables.names.fresh.1, elements := f.elements, depth := f.visit.depth,
         seq := p.candidates.size }, p.tables.names.fresh.2) := by
  simp [candidateFor, h, Find.elements]

lemma symbols_consider (v : Visit) (symbols : List Neighbour) (p : Progress) (r : Run) :
    (Progress.consider v symbols p r).tables.symbols = p.tables.symbols := by
  cases hverdict : v.verdict r with
  | loneTerminal => simp [Progress.consider, hverdict]
  | unbalanced text => simp [Progress.consider, hverdict]
  | admissible =>
    simp only [Progress.consider, hverdict]
    rw [tables_record _ ⟨v, r⟩]

lemma symbols_considerAll (v : Visit) (symbols : List Neighbour) (p : Progress) (rs : List Run) :
    (rs.foldl (Progress.consider v symbols) p).tables.symbols = p.tables.symbols := by
  induction rs generalizing p with
  | nil => rfl
  | cons r rs ih => rw [List.foldl_cons, ih, symbols_consider]

lemma symbols_enter (settings : Settings) (p : Progress) (v : Visit) :
    (p.enter settings v).tables.symbols = (p.tables.symbols.internAll v.labels).2 := by
  rw [Progress.enter]
  exact symbols_considerAll v _ _ _

/-- A property of surveys on their way and of their finds that a survey through some visits keeps:
counts do not matter to it, it holds with more symbols, and a find that is recorded with the numbers
of the labels around it joins the others. -/
structure Kept (settings : Settings) (vs : List Visit) (P : Progress → List Find → Prop) : Prop where
  congr : ∀ {p q : Progress} {done : List Find}, P p done → q.candidates = p.candidates →
    q.wrappers = p.wrappers → q.tables.names = p.tables.names →
    p.tables.symbols.Within q.tables.symbols → P q done
  record : ∀ {p : Progress} {done : List Find} (f : Find), f.visit ∈ vs →
    f.run ∈ (settings.runs f.visit.size).1 →
    (∀ label ∈ f.visit.labels, label ∈ p.tables.symbols.labels) → P p done →
    P (p.record f.visit (f.visit.labels.map p.tables.symbols.neighbour) f.run) (done ++ [f])

namespace Kept

variable {settings : Settings} {vs : List Visit} {P : Progress → List Find → Prop}
  {p : Progress} {done : List Find} {v : Visit}

lemma consider (h : Kept settings vs P) (hv : v ∈ vs) {r : Run}
    (hr : r ∈ (settings.runs v.size).1)
    (hlabels : ∀ label ∈ v.labels, label ∈ p.tables.symbols.labels) (hp : P p done) :
    P (consider v (v.labels.map p.tables.symbols.neighbour) p r)
      (done ++ if v.verdict r = .admissible then [⟨v, r⟩] else []) := by
  cases hverdict : v.verdict r with
  | loneTerminal | unbalanced =>
    simp only [Progress.consider, hverdict, reduceCtorEq, if_false, List.append_nil]
    exact h.congr hp rfl rfl rfl (.refl _)
  | admissible =>
    simp only [Progress.consider, hverdict, if_true]
    exact h.record (p := { p with tally.spansConsidered := p.tally.spansConsidered + 1 }) ⟨v, r⟩ hv
      hr hlabels (h.congr hp rfl rfl rfl (.refl _))

lemma considerAll (h : Kept settings vs P) (hv : v ∈ vs) {rs : List Run}
    (hrs : rs ⊆ (settings.runs v.size).1)
    (hlabels : ∀ label ∈ v.labels, label ∈ p.tables.symbols.labels) (hp : P p done) :
    P (rs.foldl (Progress.consider v (v.labels.map p.tables.symbols.neighbour)) p)
      (done ++ (rs.filter fun r => v.verdict r = .admissible).map (Find.mk v)) := by
  induction rs generalizing p done with
  | nil => simpa using hp
  | cons r rs ih =>
    obtain ⟨hr, hrs⟩ := List.cons_subset.mp hrs
    -- Looking at a run interns nothing, so the numbers of the labels stay.
    have hsame := symbols_consider v (v.labels.map p.tables.symbols.neighbour) p r
    have hnext := ih hrs (hsame.symm ▸ hlabels) (h.consider hv hr hlabels hp)
    rw [hsame] at hnext
    by_cases hadm : v.verdict r = .admissible <;> simpa [hadm] using hnext

lemma enter (h : Kept settings vs P) (hv : v ∈ vs) (hp : P p done) :
    P (p.enter settings v) (done ++ findsAt settings v) := by
  have hids : (p.tables.symbols.internAll v.labels).1.map Neighbour.symbol =
      v.labels.map (p.tables.symbols.internAll v.labels).2.neighbour := by
    rw [SymbolTable.fst_internAll, List.map_map]
    rfl
  rw [Progress.enter]
  dsimp only
  rw [hids]
  exact h.considerAll (p := { p with
      tally.nodesVisited := p.tally.nodesVisited + 1
      tables := { p.tables with symbols := (p.tables.symbols.internAll v.labels).2 } }) hv
    (List.Subset.refl _) (fun label hl => SymbolTable.mem_internAll _ hl)
    (h.congr hp rfl rfl rfl (SymbolTable.within_internAll _ _))

/-- The property holds at the end of the survey, of all finds. -/
theorem enterAll (h : Kept settings vs P) {ws : List Visit} (hws : ws ⊆ vs) (hp : P p done) :
    P (ws.foldl (Progress.enter settings) p) (done ++ ws.flatMap (findsAt settings)) := by
  induction ws generalizing p done with
  | nil => simpa using hp
  | cons v ws ih =>
    obtain ⟨hv, hws⟩ := List.cons_subset.mp hws
    simpa using ih hws (h.enter hv hp)

end Kept

/-- What each find keeps is kept by a whole survey, if it speaks of candidates and names only. -/
theorem enterAll_induct {P : Progress → Prop}
    (congr : ∀ {p q : Progress}, P p → q.candidates = p.candidates →
      q.tables.names = p.tables.names → P q)
    (record : ∀ {p : Progress} (f : Find) (symbols : List Neighbour), P p →
      P (p.record f.visit symbols f.run))
    (settings : Settings) (vs : List Visit) {p : Progress} (h : P p) :
    P (vs.foldl (Progress.enter settings) p) := by
  have hkept : Kept settings vs fun p _ => P p :=
    { congr := fun hp hc _ hn _ => congr hp hc hn
      record := fun f _ _ _ hp => record f _ hp }
  exact @Kept.enterAll settings vs _ p [] hkept vs (List.Subset.refl _) h

lemma Reflects.findsOf_eq_nil {p : Progress} {done : List Find} (h : p.Reflects done) {r : String}
    (hr : p.candidates.get? r = none) : findsOf r done = [] := by
  have hnew := (h.known r).not.mp (p.candidates.get?_eq_none_iff.mp hr)
  rwa [not_not] at hnew

/-- Recording a find is reflected as this find. -/
theorem Reflects.record {p : Progress} {done : List Find} (h : p.Reflects done) (f : Find)
    (symbols : List Neighbour) :
    (p.record f.visit symbols f.run).Reflects (done ++ [f]) where
  known r := by
    rw [candidates_record, Catalogue.insert, Catalogue.keys, Catalogue.upsert,
      Catalogue.mem_keys_alter]
    have := h.known r
    rw [Catalogue.keys] at this
    rw [this, findsOf_append]
    by_cases hr : f.rendered = r
    · simp [findsOf, hr]
    · simp [findsOf, hr, Ne.symm hr]
  tells r c hc := by
    rw [candidates_record, Catalogue.get?_insert] at hc
    by_cases hr : r = f.rendered
    · subst hr
      obtain rfl : p.recorded f symbols = c := by simpa using hc
      rw [findsOf_concat_self, recorded]
      cases hk : p.candidates.get? f.rendered with
      | some c =>
        rw [candidateFor_known hk]
        exact (h.tells _ c hk).record f _ _
      | none =>
        rw [candidateFor_new hk, h.findsOf_eq_nil hk]
        exact Candidate.tells_record_new _ _ _ _ _ _
    · rw [findsOf_concat_of_ne hr]
      exact h.tells r c (by simpa [hr] using hc)
  wrappers r := by
    rw [wrappers_record, findsOf_append, List.countP_append, ← h.wrappers r]
    by_cases hr : f.rendered = r
    · subst hr
      by_cases hw : f.isWhole = true <;> simp [hw, findsOf]
    · by_cases hw : f.isWhole = true <;> simp [hw, findsOf, hr, Ne.symm hr]

lemma Reflects.enterAll {p : Progress} {done : List Find} (h : p.Reflects done)
    (settings : Settings) (vs : List Visit) :
    (vs.foldl (Progress.enter settings) p).Reflects (done ++ vs.flatMap (findsAt settings)) := by
  have hkept : Kept settings vs Reflects :=
    { congr := fun hp hc hw _ _ =>
        ⟨by rw [hc]; exact hp.known, by rw [hc]; exact hp.tells, by rw [hw]; exact hp.wrappers⟩
      record := fun f _ _ _ hp => hp.record f _ }
  exact hkept.enterAll (List.Subset.refl _) h

/-- Among reflected candidates, those that are dropped occur only as whole child lists. -/
theorem Reflects.isWrapper_iff {p : Progress} {done : List Find} (h : p.Reflects done) {r : String}
    {c : Candidate} (hc : p.candidates.get? r = some c) :
    p.isWrapper r c = true ↔ ∀ f ∈ findsOf r done, f.isWhole = true := by
  have htells := h.tells r c hc
  have hcount := h.wrappers r
  obtain ⟨f, rest, hfs, -⟩ := htells.first
  have hpos : 0 < (findsOf r done).length := by simp [hfs]
  rw [isWrapper, beq_iff_eq, htells.occurrences, ← List.countP_eq_length, ← hcount]
  cases hw : p.wrappers.get? r with
  | none => simp; omega
  | some n => simp

/-- The candidates of a finished survey: those that occur also as a part of a child list. -/
theorem Reflects.get?_finish_iff {p : Progress} {done : List Find} (h : p.Reflects done)
    {r : String} {c : Candidate} :
    p.finish.candidates.get? r = some c ↔
      p.candidates.get? r = some c ∧ ∃ f ∈ findsOf r done, f.isWhole = false := by
  rw [finish, Catalogue.get?_filter_eq_some_iff]
  refine and_congr_right fun hc => ?_
  rw [Bool.not_eq_true', ← Bool.not_eq_true, h.isWrapper_iff hc]
  simp

end Survey.Progress

namespace Survey

/-- The survey of a forest on its way reflects all finds at its end. -/
theorem reflects_finds (settings : Settings) (trees : Forest) (tables : Tables) :
    (trees.visits.foldl (Progress.enter settings) { tables }).Reflects (finds settings trees) := by
  exact (Progress.reflects_start tables).enterAll settings trees.visits

section

variable {settings : Settings} {trees : Forest} {tables t : Tables} {s : Survey}

lemma eq_finish_of_ofForest_ok (h : ofForest settings trees tables = (.ok s, t)) :
    s = (trees.visits.foldl (Progress.enter settings) { tables }).finish ∧
      t = (trees.visits.foldl (Progress.enter settings) { tables }).tables := by
  obtain ⟨hs, ho⟩ := no_overflow_of_ofForest_ok h
  rw [ofForest_of_no_overflow tables hs ho, Prod.mk.injEq, Except.ok.injEq] at h
  exact ⟨h.1.symm, h.2.symm⟩

lemma get?_of_get?_finish {p : Progress} {r : String} {c : Candidate}
    (h : p.finish.candidates.get? r = some c) : p.candidates.get? r = some c :=
  ((Catalogue.get?_filter_eq_some_iff _).mp h).1

/-- A candidate of a finished survey tells all finds of its joined labels. -/
theorem tells_of_ofForest_ok (h : ofForest settings trees tables = (.ok s, t)) {r : String}
    {c : Candidate} (hc : s.candidates.get? r = some c) :
    c.Tells (Progress.findsOf r (finds settings trees)) := by
  obtain ⟨rfl, -⟩ := eq_finish_of_ofForest_ok h
  exact (reflects_finds settings trees tables).tells r c (get?_of_get?_finish hc)

end

end Survey
end GrammarInduction
