import Mathlib.Data.List.Perm.Basic
import GrammarInduction.Proofs.NameSupply.Handing
import GrammarInduction.Proofs.Survey.Account

/-!
The candidates that a survey finds, also those that it drops at its end, and also where it meets
an overflow. They are exactly those to which it hands out names, in the order of their finding.
-/
namespace GrammarInduction

namespace Catalogue

variable {κ : Type _} {ν : Type _}

/-- What passes a test and what does not are all entries. -/
theorem entries_filter_append_perm (c : Catalogue κ ν) (p : κ → ν → Bool) :
    ((c.filter fun k v => !p k v).entries ++ (c.filter p).entries).Perm c.entries := by
  have h := List.filter_append_perm (fun e : κ × ν => !p e.1 e.2) c.entries
  simpa only [filter, Bool.not_not] using h

lemma keys_filter_append_perm (c : Catalogue κ ν) (p : κ → ν → Bool) :
    ((c.filter fun k v => !p k v).keys ++ (c.filter p).keys).Perm c.keys := by
  rw [keys, keys, ← List.map_append]
  exact (c.entries_filter_append_perm p).map _

lemma sum_values_filter (f : ν → Nat) (c : Catalogue κ ν) (p : κ → ν → Bool) :
    ((c.filter fun k v => !p k v).values.map f).sum + ((c.filter p).values.map f).sum =
      (c.values.map f).sum := by
  rw [← List.sum_append_nat, ← List.map_append, values, values, ← List.map_append]
  exact (((c.entries_filter_append_perm p).map _).map f).sum_nat

variable [DecidableEq κ]

lemma map_snd_alter_new {k : κ} (v : ν) {es : List (κ × ν)} (h : find? k es = none) :
    (alter k (fun _ => v) es).map Prod.snd = es.map Prod.snd ++ [v] := by
  induction es with
  | nil => rfl
  | cons e es ih =>
    by_cases hk : e.1 = k
    · simp [find?, hk] at h
    · simp only [find?, hk, if_false] at h
      simp [alter, hk, ih h]

/-- A new key comes last. -/
theorem values_insert_new {c : Catalogue κ ν} {k : κ} (h : c.get? k = none) (v : ν) :
    (c.insert k v).values = c.values ++ [v] := map_snd_alter_new v h

lemma map_map_snd_alter_known {β : Type _} (f : ν → β) {k : κ} {v w : ν} {es : List (κ × ν)}
    (h : find? k es = some w) (hf : f v = f w) :
    ((alter k (fun _ => v) es).map Prod.snd).map f = (es.map Prod.snd).map f := by
  induction es with
  | nil => simp [find?] at h
  | cons e es ih =>
    by_cases hk : e.1 = k
    · obtain rfl : e.2 = w := by simpa [find?, hk] using h
      simp [alter, hk, hf]
    · simp only [find?, hk, if_false] at h
      simpa [alter, hk] using ih h

/-- A known key keeps its place, and what its new value shares with the old one. -/
theorem map_values_insert_known {β : Type _} (f : ν → β) {c : Catalogue κ ν} {k : κ} {v w : ν}
    (h : c.get? k = some w) (hf : f v = f w) :
    (c.insert k v).values.map f = c.values.map f := map_map_snd_alter_known f h hf

end Catalogue

namespace Survey

def found (settings : Settings) (trees : Forest) (tables : Tables) : Catalogue String Candidate :=
  (reached settings trees tables).candidates

section

variable {settings : Settings} {trees : Forest} {tables t : Tables} {s : Survey}

/-- A survey that finishes drops some of what it found. -/
theorem eq_finish_reached (h : ofForest settings trees tables = (.ok s, t)) :
    s = (reached settings trees tables).finish := by
  obtain ⟨hs, ho⟩ := no_overflow_of_ofForest_ok h
  rw [reached, entered_of_no_overflow hs ho]
  exact (eq_finish_of_ofForest_ok h).1

/-- What a survey keeps and what it drops is all that it found. -/
theorem keys_append_suppressed_perm (h : ofForest settings trees tables = (.ok s, t)) :
    (s.candidates.keys ++ s.suppressed).Perm (found settings trees tables).keys := by
  rw [eq_finish_reached h]
  exact Catalogue.keys_filter_append_perm _ _

/-- What a survey keeps and the wrappers that it drops are counted apart. -/
theorem length_found (h : ofForest settings trees tables = (.ok s, t)) :
    (found settings trees tables).values.length =
      s.candidates.size + s.tally.wrappersSuppressed := by
  have hlen := (keys_append_suppressed_perm h).length_eq
  have htally : s.tally.wrappersSuppressed = s.suppressed.length := by
    rw [eq_finish_reached h]
    rfl
  simpa [htally, Catalogue.keys, Catalogue.values, Catalogue.size] using hlen.symm

/-- What a survey keeps is as it was found. -/
theorem values_sublist_found (h : ofForest settings trees tables = (.ok s, t)) :
    s.candidates.values.Sublist (found settings trees tables).values := by
  rw [eq_finish_reached h]
  exact List.filter_sublist.map _

lemma get?_found_of_get? (h : ofForest settings trees tables = (.ok s, t)) {r : String}
    {c : Candidate} (hc : s.candidates.get? r = some c) :
    (found settings trees tables).get? r = some c := by
  rw [eq_finish_reached h] at hc
  exact get?_of_get?_finish hc

end

namespace Progress

variable {start : NameSupply} {p : Progress}

/-- All names since the start went to candidates, in the order of their finding. -/
def Named (start : NameSupply) (p : Progress) : Prop :=
  start.HandsOut (p.candidates.values.map Candidate.id) p.tables.names

lemma Named.record (h : p.Named start) (f : Find) (symbols : List Neighbour) :
    (p.record f.visit symbols f.run).Named start := by
  rw [Named, candidates_record, tables_record]
  cases hc : p.candidates.get? f.rendered with
  | some c =>
    have hid : (p.recorded f symbols).id = c.id := by simp [recorded, candidateFor_known hc]
    rw [Catalogue.map_values_insert_known Candidate.id hc hid, candidateFor_known hc]
    exact h
  | none =>
    have hid : (p.recorded f symbols).id = p.tables.names.fresh.1 := by
      simp [recorded, candidateFor_new hc]
    rw [Catalogue.values_insert_new hc, candidateFor_new hc, List.map_append, List.map_singleton,
      hid]
    exact h.append (NameSupply.handsOut_fresh p.tables.names)

lemma Named.enterAll (h : p.Named start) (settings : Settings) (vs : List Visit) :
    (vs.foldl (Progress.enter settings) p).Named start := by
  refine enterAll_induct (fun hp hc hn => ?_) (fun f symbols hp => hp.record f symbols)
    settings vs h
  rw [Named, hc, hn]
  exact hp

end Progress

/-- A survey hands out a name to each candidate that it finds, and no other name. -/
theorem handsOut_ofForest (settings : Settings) (trees : Forest) (tables : Tables) :
    tables.names.HandsOut ((found settings trees tables).values.map Candidate.id)
      (ofForest settings trees tables).2.names := by
  have hstart : ({ tables } : Progress).Named tables.names := .nil tables.names
  rw [tables_ofForest]
  exact hstart.enterAll settings (entered settings trees)

end Survey
end GrammarInduction
