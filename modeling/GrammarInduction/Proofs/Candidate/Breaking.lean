import GrammarInduction.Candidate.Breaking
import GrammarInduction.Proofs.Survey.Account

/-!
When one candidate breaks another one, in terms of their sites and spans alone: all sites of the
broken one are sites of the other, and there each of its spans is overlapped and none is covered.
Both answers come from this one relation, read in either direction.
-/
namespace GrammarInduction

namespace Span

/-- A span meets another one without covering it. -/
def cuts (a b : Span) : Bool := !a.isDisjoint b && !a.contains b

lemma cuts_eq_true_iff {a b : Span} :
    a.cuts b = true ↔ ¬a.isDisjoint b = true ∧ ¬a.contains b = true := by
  rw [cuts, Bool.and_eq_true, Bool.not_eq_true', Bool.not_eq_true', Bool.not_eq_true,
    Bool.not_eq_true]

lemma isDisjoint_comm (a b : Span) : a.isDisjoint b = b.isDisjoint a := Bool.or_comm _ _

end Span

namespace Breaking

/-- Two spans at a common site are evidence for both directions at once. -/
theorem weighSpans_eq (v : Breaking) (m t : Span) :
    v.weighSpans m t = ⟨v.selfBreaksOther && m.cuts t, v.otherBreaksSelf && t.cuts m⟩ := by
  cases h : m.isDisjoint t <;> simp [weighSpans, Span.cuts, t.isDisjoint_comm m, h]

lemma weighSpans_foldl (v : Breaking) (m : Span) (ts : List Span) :
    ts.foldl (fun v t => v.weighSpans m t) v =
      ⟨v.selfBreaksOther && ts.all m.cuts, v.otherBreaksSelf && ts.all fun t => t.cuts m⟩ := by
  induction ts generalizing v with
  | nil => simp
  | cons t ts ih =>
    rw [List.foldl_cons, ih, weighSpans_eq]
    simp [Bool.and_assoc]

lemma weighSite_some (v : Breaking) (ms ts : List Span) :
    v.weighSite ms (some ts) =
      ⟨v.selfBreaksOther && ms.all fun m => ts.all m.cuts,
        v.otherBreaksSelf && ms.all fun m => ts.all fun t => t.cuts m⟩ := by
  have h : ∀ v : Breaking,
      ms.foldl (fun v m => ts.foldl (fun v t => v.weighSpans m t) v) v =
        ⟨v.selfBreaksOther && ms.all fun m => ts.all m.cuts,
          v.otherBreaksSelf && ms.all fun m => ts.all fun t => t.cuts m⟩ := by
    induction ms with
    | nil => simp
    | cons m ms ih =>
      intro v
      rw [List.foldl_cons, ih, weighSpans_foldl]
      simp [Bool.and_assoc]
  exact h v

/-- The verdict on the sites of the first candidate: a site that only it has speaks against being
broken. -/
theorem weighSite_foldl (v : Breaking) (other : Catalogue Site (List Span))
    (es : List (Site × List Span)) :
    es.foldl (fun v e => v.weighSite e.2 (other.get? e.1)) v =
      ⟨v.selfBreaksOther && es.all fun e => (other.get? e.1).all fun ts =>
          e.2.all fun m => ts.all m.cuts,
        v.otherBreaksSelf && es.all fun e => (other.get? e.1).any fun ts =>
          e.2.all fun m => ts.all fun t => t.cuts m⟩ := by
  induction es generalizing v with
  | nil => simp
  | cons e es ih =>
    rw [List.foldl_cons, ih]
    cases h : other.get? e.1 with
    | none => simp [weighSite, h]
    | some ts => simp [weighSite_some, h, Bool.and_assoc]

end Breaking

namespace Candidate

/-- Every site of the other candidate is a site of this one, and there every span of this one cuts
every span of the other. -/
def Breaks (a b : Candidate) : Prop :=
  ∀ site ∈ b.sources.keys, site ∈ a.sources.keys ∧
    ∀ m ∈ a.spansAt site, ∀ t ∈ b.spansAt site, m.cuts t = true

lemma spansAt_of_mem_entries {c : Candidate} {site : Site} {spans : List Span}
    (h : (site, spans) ∈ c.sources.entries) : c.spansAt site = spans := by
  rw [spansAt, c.sources.get?_eq_some_iff.mpr h]
  rfl

lemma mem_sources_entries {c : Candidate} {site : Site} (h : site ∈ c.sources.keys) :
    (site, c.spansAt site) ∈ c.sources.entries := by
  obtain ⟨spans, hs⟩ := (Catalogue.mem_keys_iff _).mp h
  rw [spansAt, hs]
  exact (Catalogue.get?_eq_some_iff _).mp hs

/-- The spans of another candidate where it has the site, and nothing where it has not. -/
theorem get?_sources (c : Candidate) (site : Site) :
    c.sources.get? site = if site ∈ c.sources.keys then some (c.spansAt site) else none := by
  by_cases h : site ∈ c.sources.keys
  · rw [if_pos h]
    exact (Catalogue.get?_eq_some_iff _).mpr (mem_sources_entries h)
  · rw [if_neg h]
    exact (Catalogue.get?_eq_none_iff _).mpr h

/-- Both answers are about the same relation, unless neither candidate occurs anywhere. -/
theorem breaking_eq_ok {a b : Candidate}
    (h : (a.sources.isEmpty && b.sources.isEmpty) = false) :
    ∃ v, a.breaking b = .ok v ∧ (v.selfBreaksOther = true ↔ a.Breaks b) ∧
      (v.otherBreaksSelf = true ↔ b.Breaks a) := by
  refine ⟨_, by rw [breaking, h]; rfl, ?_, ?_⟩
  · rw [Breaking.weighSite_foldl]
    simp only [Bool.true_and, Bool.and_eq_true, List.all_eq_true, Bool.not_eq_true',
      List.any_eq_false]
    constructor
    · rintro ⟨hcut, hsites⟩ site hb
      have ha : site ∈ a.sources.keys := by
        have := hsites site hb
        rwa [Bool.not_eq_false, Catalogue.contains_iff] at this
      refine ⟨ha, fun m hm t ht => ?_⟩
      have := hcut _ (mem_sources_entries ha)
      rw [b.get?_sources, if_pos hb] at this
      simp only [Option.all_some, List.all_eq_true] at this
      exact this m hm t ht
    · intro hbreaks
      constructor
      · rintro ⟨site, spans⟩ he
        obtain rfl := spansAt_of_mem_entries he
        rw [b.get?_sources]
        by_cases hb : site ∈ b.sources.keys
        · simpa [hb] using fun m hm t ht => (hbreaks site hb).2 m hm t ht
        · simp [hb]
      · intro site hb
        rw [Bool.not_eq_false, Catalogue.contains_iff]
        exact (hbreaks site hb).1
  · rw [Breaking.weighSite_foldl]
    simp only [Bool.true_and, List.all_eq_true]
    constructor
    · intro hall site ha
      have := hall _ (mem_sources_entries ha)
      rw [b.get?_sources] at this
      by_cases hb : site ∈ b.sources.keys
      · simp only [hb, if_true, Option.any_some, List.all_eq_true] at this
        exact ⟨hb, fun t ht m hm => this m hm t ht⟩
      · simp [hb] at this
    · rintro hbreaks ⟨site, spans⟩ he
      obtain rfl := spansAt_of_mem_entries he
      have ha : site ∈ a.sources.keys := List.mem_map.mpr ⟨_, he, rfl⟩
      obtain ⟨hb, hcut⟩ := hbreaks site ha
      rw [b.get?_sources, if_pos hb]
      simpa using fun m hm t ht => hcut t ht m hm

end Candidate
end GrammarInduction
