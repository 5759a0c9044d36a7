import GrammarInduction.Proofs.NameSupply.Decoding
import GrammarInduction.Proofs.NameSupply.Growth
import GrammarInduction.Proofs.Survey.Account

/-!
The names of candidates. While the counter of names stays below its limit, each candidate of a
survey has the name whose number is that of the first name plus the number of candidates found
before, so that no two candidates share a name.
-/
namespace GrammarInduction

namespace Catalogue

variable {κ : Type _} {ν : Type _} [DecidableEq κ]

lemma length_alter (k : κ) (f : Option ν → ν) (es : List (κ × ν)) :
    (alter k f es).length = if (find? k es).isSome then es.length else es.length + 1 := by
  induction es with
  | nil => simp [alter, find?]
  | cons e es ih =>
    by_cases hk : e.1 = k
    · simp [alter, find?, hk]
    · simp only [alter, find?, hk, if_false, List.length_cons, ih]
      split <;> rfl

lemma size_insert (c : Catalogue κ ν) (k : κ) (v : ν) :
    (c.insert k v).size = if (c.get? k).isSome then c.size else c.size + 1 :=
  length_alter k _ c.entries

end Catalogue

namespace Survey

/-- The candidates of a survey on its way are numbered in the order of their finding, and their
names count on from those of `start`. -/
structure Progress.Numbered (start : NameSupply) (p : Progress) : Prop where
  seq_lt : ∀ r c, p.candidates.get? r = some c → c.seq < p.candidates.size
  seq_inj : ∀ r r' c c', p.candidates.get? r = some c → p.candidates.get? r' = some c' →
    c.seq = c'.seq → r = r'
  stem : p.tables.names.stem = start.stem
  next : p.tables.names.next < wordMax → p.tables.names.next = start.next + p.candidates.size
  id : p.tables.names.next < wordMax → ∀ r c, p.candidates.get? r = some c →
    c.id = start.nameAt (start.next + c.seq)

namespace Progress

variable {start : NameSupply} {p : Progress}

lemma numbered_start (tables : Tables) : ({ tables } : Progress).Numbered tables.names where
  seq_lt r c h := by simp at h
  seq_inj r r' c c' h := by simp at h
  stem := rfl
  next _ := rfl
  id _ r c h := by simp at h

/-- Only the candidates and the names count. -/
theorem Numbered.congr (h : p.Numbered start) {q : Progress} (hc : q.candidates = p.candidates)
    (hn : q.tables.names = p.tables.names) : q.Numbered start where
  seq_lt := by rw [hc]; exact h.seq_lt
  seq_inj := by rw [hc]; exact h.seq_inj
  stem := by rw [hn]; exact h.stem
  next := by rw [hc, hn]; exact h.next
  id := by rw [hc, hn]; exact h.id

/-- A known candidate keeps its number and its name. -/
theorem Numbered.record_known (h : p.Numbered start) {f : Find} {c : Candidate}
    (hc : p.candidates.get? f.rendered = some c) (symbols : List Neighbour) :
    (p.record f.visit symbols f.run).Numbered start := by
  have hnames : (p.record f.visit symbols f.run).tables.names = p.tables.names := by
    rw [tables_record, candidateFor_known hc]
  have hsize : (p.record f.visit symbols f.run).candidates.size = p.candidates.size := by
    rw [candidates_record, Catalogue.size_insert, hc]
    rfl
  have hold : ∀ r d, (p.record f.visit symbols f.run).candidates.get? r = some d →
      ∃ d', p.candidates.get? r = some d' ∧ d.seq = d'.seq ∧ d.id = d'.id := by
    intro r d hd
    rw [candidates_record, Catalogue.get?_insert] at hd
    by_cases hr : r = f.rendered
    · obtain rfl : p.recorded f symbols = d := by simpa [hr] using hd
      exact ⟨c, hr ▸ hc, by simp [recorded, candidateFor_known hc],
        by simp [recorded, candidateFor_known hc]⟩
    · exact ⟨d, by simpa [hr] using hd, rfl, rfl⟩
  refine ⟨?_, ?_, hnames ▸ h.stem, ?_, ?_⟩
  · intro r d hd
    obtain ⟨d', hd', hseq, -⟩ := hold r d hd
    rw [hsize, hseq]
    exact h.seq_lt r d' hd'
  · intro r r' d e hd he hde
    obtain ⟨d', hd', hseq, -⟩ := hold r d hd
    obtain ⟨e', he', hseq', -⟩ := hold r' e he
    exact h.seq_inj r r' d' e' hd' he' (by rw [← hseq, ← hseq', hde])
  · rw [hnames, hsize]
    exact h.next
  · rw [hnames]
    intro hlt r d hd
    obtain ⟨d', hd', hseq, hid⟩ := hold r d hd
    rw [hid, hseq]
    exact h.id hlt r d' hd'

/-- A new candidate gets the next number and the next name. -/
theorem Numbered.record_new (h : p.Numbered start) {f : Find}
    (hc : p.candidates.get? f.rendered = none) (symbols : List Neighbour) :
    (p.record f.visit symbols f.run).Numbered start := by
  have hnames : (p.record f.visit symbols f.run).tables.names = p.tables.names.fresh.2 := by
    rw [tables_record, candidateFor_new hc]
  have hsize : (p.record f.visit symbols f.run).candidates.size = p.candidates.size + 1 := by
    rw [candidates_record, Catalogue.size_insert, hc]
    rfl
  have hcases : ∀ r d, (p.record f.visit symbols f.run).candidates.get? r = some d →
      (r = f.rendered ∧ d.seq = p.candidates.size ∧ d.id = p.tables.names.fresh.1) ∨
        p.candidates.get? r = some d := by
    intro r d hd
    rw [candidates_record, Catalogue.get?_insert] at hd
    by_cases hr : r = f.rendered
    · obtain rfl : p.recorded f symbols = d := by simpa [hr] using hd
      exact .inl ⟨hr, by simp [recorded, candidateFor_new hc],
        by simp [recorded, candidateFor_new hc]⟩
    · exact .inr (by simpa [hr] using hd)
  refine ⟨?_, ?_, ?_, ?_, ?_⟩
  · intro r d hd
    rw [hsize]
    rcases hcases r d hd with ⟨-, hseq, -⟩ | hd
    · omega
    · exact Nat.lt_succ_of_lt (h.seq_lt r d hd)
  · intro r r' d e hd he hde
    rcases hcases r d hd with ⟨hr, hseq, -⟩ | hd <;> rcases hcases r' e he with ⟨hr', hseq', -⟩ | he
    · rw [hr, hr']
    · exact absurd (h.seq_lt r' e he) (by omega)
    · exact absurd (h.seq_lt r d hd) (by omega)
    · exact h.seq_inj r r' d e hd he hde
  · rw [hnames]
    exact h.stem
  · rw [hnames, hsize]
    intro hlt
    obtain ⟨hlt', hnext⟩ := NameSupply.next_fresh_of_lt hlt
    rw [hnext, h.next hlt']
    omega
  · rw [hnames]
    intro hlt r d hd
    obtain ⟨hlt', -⟩ := NameSupply.next_fresh_of_lt hlt
    rcases hcases r d hd with ⟨-, hseq, hid⟩ | hd
    · rw [hid, hseq, NameSupply.fresh, h.next hlt', NameSupply.nameAt, NameSupply.nameAt, h.stem]
    · exact h.id hlt' r d hd

lemma Numbered.record (h : p.Numbered start) (f : Find) (symbols : List Neighbour) :
    (p.record f.visit symbols f.run).Numbered start := by
  cases hc : p.candidates.get? f.rendered with
  | some c => exact h.record_known hc symbols
  | none => exact h.record_new hc symbols

lemma Numbered.enterAll (h : p.Numbered start) (settings : Settings) (vs : List Visit) :
    (vs.foldl (Progress.enter settings) p).Numbered start :=
  enterAll_induct (fun hp hc hn => hp.congr hc hn) (fun f symbols hp => hp.record f symbols)
    settings vs h

end Progress

section

variable {settings : Settings} {trees : Forest} {tables t : Tables} {s : Survey}

/-- Different candidates of a survey were found at different times. -/
theorem eq_of_seq_eq (h : ofForest settings trees tables = (.ok s, t)) {r r' : String}
    {c c' : Candidate} (hc : s.candidates.get? r = some c) (hc' : s.candidates.get? r' = some c')
    (hseq : c.seq = c'.seq) : r = r' := by
  obtain ⟨rfl, -⟩ := eq_finish_of_ofForest_ok h
  have hnum := (Progress.numbered_start tables).enterAll settings trees.visits
  exact hnum.seq_inj r r' c c' (get?_of_get?_finish hc) (get?_of_get?_finish hc') hseq

/-- A survey only takes names, also when it cannot be finished. -/
theorem leadsTo_ofForest (settings : Settings) (trees : Forest) (tables : Tables) :
    tables.names.LeadsTo (ofForest settings trees tables).2.names := by
  have hnum : (reached settings trees tables).Numbered tables.names :=
    (Progress.numbered_start tables).enterAll settings _
  rw [tables_ofForest]
  refine ⟨hnum.stem, fun hlt => ?_⟩
  rw [hnum.next hlt]
  exact Nat.le_add_right _ _

/-- A candidate has a name that the survey handed out. -/
theorem id_of_ofForest_ok (h : ofForest settings trees tables = (.ok s, t))
    (hlt : t.names.next < wordMax) {r : String} {c : Candidate}
    (hc : s.candidates.get? r = some c) :
    c.id = tables.names.nameAt (tables.names.next + c.seq) ∧
      tables.names.next + c.seq < t.names.next := by
  obtain ⟨rfl, rfl⟩ := eq_finish_of_ofForest_ok h
  have hnum := (Progress.numbered_start tables).enterAll settings trees.visits
  have hc := get?_of_get?_finish hc
  refine ⟨hnum.id hlt r c hc, ?_⟩
  have hnext := hnum.next hlt
  have hseq := hnum.seq_lt r c hc
  omega

lemma eq_of_id_eq (h : ofForest settings trees tables = (.ok s, t))
    (hlt : t.names.next < wordMax) {r r' : String} {c c' : Candidate}
    (hc : s.candidates.get? r = some c) (hc' : s.candidates.get? r' = some c')
    (hid : c.id = c'.id) : r = r' := by
  rw [(id_of_ofForest_ok h hlt hc).1, (id_of_ofForest_ok h hlt hc').1] at hid
  have := NameSupply.nameAt_injective hid
  exact eq_of_seq_eq h hc hc' (by omega)

end

end Survey
end GrammarInduction
