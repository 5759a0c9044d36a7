import GrammarInduction.Proofs.Candidate.Breaking

/-!
The verdict on two candidates as a question about positions: one breaks the other if it stands at
all its sites and all their spans there share a position, but no span of the first one holds all
positions of one of the second. Asked the other way round the verdict is the same with its answers
exchanged, and it knows nothing of the order of sites and spans.
-/
namespace GrammarInduction

namespace Span

def Overlaps (a b : Span) : Prop := ∃ i, a.Covers i ∧ b.Covers i

def Includes (a b : Span) : Prop := ∀ i, b.Covers i → a.Covers i

instance (a : Span) : Decidable a.Ordered := inferInstanceAs (Decidable (_ ≤ _))

/-- Among spans with their ends in order, to cut is to overlap without including. -/
theorem cuts_iff {a b : Span} (ha : a.Ordered) (hb : b.Ordered) :
    a.cuts b = true ↔ a.Overlaps b ∧ ¬a.Includes b := by
  rw [cuts_eq_true_iff, isDisjoint_iff ha hb, contains_iff hb, not_forall_not]
  exact Iff.rfl

end Span

namespace Breaking

def swap (v : Breaking) : Breaking := ⟨v.otherBreaksSelf, v.selfBreaksOther⟩

lemma eq_iff {v w : Breaking} : v = w ↔
    (v.selfBreaksOther = true ↔ w.selfBreaksOther = true) ∧
      (v.otherBreaksSelf = true ↔ w.otherBreaksSelf = true) := by
  rw [← Bool.eq_iff_iff, ← Bool.eq_iff_iff, ← Breaking.mk.injEq]

end Breaking

namespace Candidate

def SpansOrdered (c : Candidate) : Prop := ∀ e ∈ c.sources.entries, ∀ m ∈ e.2, m.Ordered

instance (c : Candidate) : Decidable c.SpansOrdered :=
  inferInstanceAs (Decidable (∀ e ∈ c.sources.entries, ∀ m ∈ e.2, m.Ordered))

/-- Every site of the other candidate is a site of this one, and wherever both occur each two of
their spans overlap, but none of this one includes one of the other. -/
structure Destroys (a b : Candidate) : Prop where
  sites : ∀ site ∈ b.sources.keys, site ∈ a.sources.keys
  spans : ∀ site ∈ a.sources.keys, site ∈ b.sources.keys →
    ∀ m ∈ a.spansAt site, ∀ t ∈ b.spansAt site, m.Overlaps t ∧ ¬m.Includes t

/-- The same sites, and the same spans at each of them, in any order and repeated or not. -/
structure SameSources (c d : Candidate) : Prop where
  sites : ∀ site, site ∈ c.sources.keys ↔ site ∈ d.sources.keys
  spans : ∀ site span, span ∈ c.spansAt site ↔ span ∈ d.spansAt site

variable {a b c d : Candidate}

lemma SpansOrdered.of_mem_spansAt (h : c.SpansOrdered) {site : Site} {m : Span}
    (hm : m ∈ c.spansAt site) : m.Ordered := by
  by_cases hsite : site ∈ c.sources.keys
  · exact h _ (mem_sources_entries hsite) m hm
  · rw [spansAt, c.get?_sources, if_neg hsite] at hm
    exact absurd hm List.not_mem_nil

lemma breaks_iff_destroys (ha : a.SpansOrdered) (hb : b.SpansOrdered) :
    a.Breaks b ↔ a.Destroys b := by
  constructor
  · intro h
    refine ⟨fun site hsite => (h site hsite).1, fun site _ hsite m hm t ht => ?_⟩
    apply (Span.cuts_iff (ha.of_mem_spansAt hm) (hb.of_mem_spansAt ht)).mp
    exact (h site hsite).2 m hm t ht
  · intro h site hsite
    have hself := h.sites site hsite
    refine ⟨hself, fun m hm t ht => ?_⟩
    apply (Span.cuts_iff (ha.of_mem_spansAt hm) (hb.of_mem_spansAt ht)).mpr
    exact h.spans site hself hsite m hm t ht

lemma SameSources.of_perm (h : c.sources.entries.Perm d.sources.entries) : c.SameSources d := by
  have hget : ∀ site, c.sources.get? site = d.sources.get? site := by
    intro site
    ext spans
    rw [Catalogue.get?_eq_some_iff, Catalogue.get?_eq_some_iff, h.mem_iff]
  refine ⟨fun site => ?_, fun site span => by rw [spansAt, spansAt, hget]⟩
  rw [Catalogue.mem_keys_iff, Catalogue.mem_keys_iff, hget]

lemma SameSources.breaks_iff (ha : a.SameSources c) (hb : b.SameSources d) :
    a.Breaks b ↔ c.Breaks d := by
  unfold Breaks
  refine forall_congr' fun site => imp_congr (hb.sites site) (and_congr (ha.sites site) ?_)
  exact forall_congr' fun m => imp_congr (ha.spans site m) <|
    forall_congr' fun t => imp_congr_left (hb.spans site t)

lemma isEmpty_sources_iff : c.sources.isEmpty = true ↔ c.sources.keys = [] := by
  rw [Catalogue.isEmpty, List.isEmpty_iff, Catalogue.keys, List.map_eq_nil_iff]

lemma isEmpty_and_isEmpty_iff :
    (a.sources.isEmpty && b.sources.isEmpty) = true ↔
      a.sources.keys = [] ∧ b.sources.keys = [] := by
  rw [Bool.and_eq_true, isEmpty_sources_iff, isEmpty_sources_iff]

lemma SameSources.keys_eq_nil_iff (h : c.SameSources d) :
    c.sources.keys = [] ↔ d.sources.keys = [] := by
  rw [List.eq_nil_iff_forall_not_mem, List.eq_nil_iff_forall_not_mem]
  exact forall_congr' fun site => not_congr (h.sites site)

/-- There is no verdict only where neither candidate occurs. -/
theorem breaking_eq_error_iff {fault : Fault} :
    a.breaking b = .error fault ↔
      (a.sources.keys = [] ∧ b.sources.keys = []) ∧ fault = .noSources a.id b.id := by
  rw [← isEmpty_and_isEmpty_iff]
  cases h : a.sources.isEmpty && b.sources.isEmpty with
  | true => simp [breaking, h, eq_comm]
  | false => simp [breaking, h]

/-- A verdict is known by its two answers. -/
theorem breaking_eq_ok_iff (h : ¬(a.sources.keys = [] ∧ b.sources.keys = [])) {v : Breaking} :
    a.breaking b = .ok v ↔
      (v.selfBreaksOther = true ↔ a.Breaks b) ∧ (v.otherBreaksSelf = true ↔ b.Breaks a) := by
  rw [← isEmpty_and_isEmpty_iff, Bool.not_eq_true] at h
  obtain ⟨w, hw, hself, hother⟩ := breaking_eq_ok h
  rw [hw, Except.ok.injEq, eq_comm, Breaking.eq_iff, hself, hother]

/-- The verdict on two candidates, where the ends of all spans stand in order. It lacks only where
neither of them occurs. Otherwise either answer says that one candidate destroys the other, the
verdict on the candidates in the other order has its answers exchanged, and neither the order of the
sites nor the order and the repetition of spans makes a difference. -/
theorem breaking_mirrors (ha : a.SpansOrdered) (hb : b.SpansOrdered) :
    (∀ fault, a.breaking b = .error fault ↔
        (a.sources.keys = [] ∧ b.sources.keys = []) ∧ fault = .noSources a.id b.id) ∧
      (¬(a.sources.keys = [] ∧ b.sources.keys = []) →
        ∃ v, a.breaking b = .ok v ∧ b.breaking a = .ok v.swap ∧
          (v.selfBreaksOther = true ↔ a.Destroys b) ∧
          (v.otherBreaksSelf = true ↔ b.Destroys a) ∧
          ∀ c d, a.SameSources c → b.SameSources d → c.breaking d = .ok v) := by
  refine ⟨fun fault => breaking_eq_error_iff, fun hne => ?_⟩
  obtain ⟨v, hv, hself, hother⟩ := breaking_eq_ok
    (Bool.not_eq_true _ ▸ mt isEmpty_and_isEmpty_iff.mp hne)
  refine ⟨v, hv, ?_, ?_, ?_, fun c d hc hd => ?_⟩
  · exact (breaking_eq_ok_iff (mt And.symm hne)).mpr ⟨hother, hself⟩
  · rw [hself, breaks_iff_destroys ha hb]
  · rw [hother, breaks_iff_destroys hb ha]
  · have hne' : ¬(c.sources.keys = [] ∧ d.sources.keys = []) := by
      rwa [← hc.keys_eq_nil_iff, ← hd.keys_eq_nil_iff]
    rw [breaking_eq_ok_iff hne', ← hc.breaks_iff hd, ← hd.breaks_iff hc]
    exact ⟨hself, hother⟩

/-- A candidate at two nodes, at one of them with overlapping spans. -/
def wideCandidate : Candidate where
  id := "t0"
  elements := []
  depth := 0
  sources := ⟨[(⟨0, []⟩, [⟨0, 1⟩, ⟨1, 2⟩]), (⟨0, [1]⟩, [⟨0, 1⟩])], by decide⟩

/-- The same with its nodes exchanged and with a span recorded twice. -/
def wideAgain : Candidate :=
  { wideCandidate with
    sources := ⟨[(⟨0, [1]⟩, [⟨0, 1⟩]), (⟨0, []⟩, [⟨1, 2⟩, ⟨0, 1⟩, ⟨1, 2⟩])], by decide⟩ }

/-- A candidate at one of these nodes, with a span that covers one of those there. -/
def narrowCandidate : Candidate where
  id := "t1"
  elements := []
  depth := 0
  sources := ⟨[(⟨0, []⟩, [⟨1, 3⟩])], by decide⟩

lemma sameSources_wideAgain : wideCandidate.SameSources wideAgain := by
  constructor
  · intro site
    simp [wideCandidate, wideAgain, Catalogue.keys, or_comm]
  · intro site span
    by_cases h : site = ⟨0, []⟩
    · subst h
      have hleft : wideCandidate.spansAt ⟨0, []⟩ = [⟨0, 1⟩, ⟨1, 2⟩] := by decide
      have hright : wideAgain.spansAt ⟨0, []⟩ = [⟨1, 2⟩, ⟨0, 1⟩, ⟨1, 2⟩] := by decide
      rw [hleft, hright]
      simp only [List.mem_cons, List.not_mem_nil]
      tauto
    · simp [spansAt, wideCandidate, wideAgain, Catalogue.get?, Catalogue.find?, Ne.symm h]

/-- Only the first of these candidates breaks the other one, whichever is asked first. -/
theorem breaking_mirrors_wideCandidate :
    wideCandidate.SpansOrdered ∧ narrowCandidate.SpansOrdered ∧
      ¬(wideCandidate.sources.keys = [] ∧ narrowCandidate.sources.keys = []) ∧
      wideCandidate.Destroys narrowCandidate ∧ ¬narrowCandidate.Destroys wideCandidate ∧
      narrowCandidate.breaking wideCandidate = .ok ⟨false, true⟩ ∧
      wideAgain.breaking narrowCandidate = .ok ⟨true, false⟩ := by
  have hwide : wideCandidate.SpansOrdered := by decide
  have hnarrow : narrowCandidate.SpansOrdered := by decide
  have hne : ¬(wideCandidate.sources.keys = [] ∧ narrowCandidate.sources.keys = []) := by decide
  obtain ⟨-, hverdict⟩ := breaking_mirrors hwide hnarrow
  obtain ⟨v, hv, hswap, hself, hother, hsame⟩ := hverdict hne
  obtain rfl : v = ⟨true, false⟩ := Except.ok.inj (hv.symm.trans (by decide))
  exact ⟨hwide, hnarrow, hne, hself.mp rfl, fun h => absurd (hother.mpr h) (by decide), hswap,
    hsame _ _ sameSources_wideAgain (.of_perm (.refl _))⟩

end Candidate
end GrammarInduction
