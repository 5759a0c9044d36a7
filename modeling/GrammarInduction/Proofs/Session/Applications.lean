import GrammarInduction.Proofs.Session.Builds
import GrammarInduction.Proofs.Survey.Spans

/-!
What the application of a surveyed candidate leaves of another one. In a forest that a session
built, the new names of a survey are used by nothing yet, so candidates apply in one pass and the
recorded spans alone tell where another candidate has a run afterwards.
-/
namespace GrammarInduction

/-- No name is the label of a root. -/
theorem NameSupply.nameAt_ne_rootLabel (names : NameSupply) (i : Nat) :
    names.nameAt i ≠ rootLabel := by
  intro h
  have hlist := congrArg String.toList h
  rw [toList_nameAt] at hlist
  have hlast := congrArg List.getLast? hlist
  rw [List.getLast?_append_of_ne_nil _ Nat.toDigits_ne_nil] at hlast
  have hdigit := Nat.isDigit_of_mem_toDigits (by decide) (by decide) (List.mem_of_getLast? hlast)
  exact absurd hdigit (by decide)

/-- A label that no named node has is none of those of nonterminals. -/
theorem Node.Named.not_usesRule_label {name : Nat → String} {m : Glossary} {x : String}
    (hx : ∀ k : Node, k.Named name m → k.label ≠ x) {n : Node} (h : n.Named name m) :
    ¬n.UsesRule fun l _ => l = x := by
  induction h with
  | @token i word hm =>
    rw [Node.usesRule_branch_iff]
    rintro (rfl | ⟨c, hc, huses⟩)
    · exact hx _ (.token hm) rfl
    · obtain rfl := List.mem_singleton.mp hc
      exact Node.not_usesRule_terminal huses
  | @group i cs hcs hm ih =>
    rw [Node.usesRule_branch_iff]
    rintro (rfl | ⟨c, hc, huses⟩)
    · exact hx _ (.group hcs hm) rfl
    · exact ih c hc huses

namespace Candidate

/-- Some recorded span of the other candidate lies clear of each span that this one takes at its
site, or within it. -/
def LeavesPlace (a b : Candidate) : Prop :=
  ∃ site, ∃ t ∈ b.spansAt site, ∀ m ∈ Span.apart (a.spansAt site),
    m.isDisjoint t = true ∨ m.contains t = true

end Candidate

namespace Session

/-- A survey of a named forest, with the counter of names below its limit. -/
structure Surveyed (s : Session) (trees : Forest) (survey : Survey) (s₁ : Session) (m : Glossary) :
    Prop where
  marked : s.tables.names.Marked
  below : m.Below s.tables.names.next
  named : trees.Named s.tables.names.nameAt m
  survey : s.survey trees = (.ok survey, s₁)
  lt : s₁.tables.names.next < wordMax

lemma Builds.exists_surveyed {s s₁ : Session} {trees : Forest} {survey : Survey}
    (h : s.Builds trees) (hsurvey : s.survey trees = (.ok survey, s₁))
    (hlt : s₁.tables.names.next < wordMax) : ∃ m, Surveyed s trees survey s₁ m := by
  have hkeeps := h.keeps ((step_survey hsurvey).leadsTo.lt_of_lt hlt)
  obtain ⟨m, hm, hnamed⟩ := hkeeps.named
  exact ⟨m, hkeeps.marked, hm, hnamed, hsurvey, hlt⟩

namespace Surveyed

variable {s s₁ : Session} {trees out : Forest} {survey : Survey} {m : Glossary} {a b : Candidate}
  (h : Surveyed s trees survey s₁ m)

include h

lemma exists_get? (ha : a ∈ survey.candidates.values) :
    ∃ r t, Survey.ofForest s.settings trees s.tables = (.ok survey, t) ∧
      t.names.next < wordMax ∧ survey.candidates.get? r = some a := by
  obtain ⟨r, hr⟩ := (Catalogue.mem_values_iff _).mp ha
  obtain ⟨t, hok, rfl⟩ := survey_eq_ok_iff.mp h.survey
  exact ⟨r, t, hok, h.lt, hr⟩

lemma named_elements (ha : a ∈ survey.candidates.values) :
    ∀ e ∈ a.elements, e.Named s.tables.names.nameAt m := by
  obtain ⟨r, t, hok, -, hr⟩ := h.exists_get? ha
  obtain ⟨p, hp, -, hpel, -, hpos⟩ := Survey.exists_place_of_ofForest_ok hok hr
  exact hpel ▸ Survey.named_elements_of_admissible h.named hp hpos

lemma pattern_ne_nil (ha : a ∈ survey.candidates.values) : a.grouping.pattern ≠ [] := by
  obtain ⟨r, t, hok, -, hr⟩ := h.exists_get? ha
  exact Survey.pattern_ne_nil_of_ofForest_ok hok hr

/-- The name of a candidate is new. -/
theorem label_ne_id (ha : a ∈ survey.candidates.values) (n : Node)
    (hn : n.Named s.tables.names.nameAt m) : n.label ≠ a.id := by
  obtain ⟨r, t, hok, hlt, hr⟩ := h.exists_get? ha
  obtain ⟨i, hi, hm, -⟩ := hn.exists_number
  rw [hi, (Survey.id_of_ofForest_ok hok hlt hr).1]
  intro heq
  have hbelow := h.below i _ hm
  have := NameSupply.nameAt_injective heq
  omega

lemma id_not_mem_pattern (ha : a ∈ survey.candidates.values)
    (hb : b ∈ survey.candidates.values) : a.grouping.id ∉ b.grouping.pattern := by
  intro hmem
  obtain ⟨e, he, hlabel⟩ := List.mem_map.mp hmem
  exact h.label_ne_id ha e (h.named_elements hb e he) hlabel

lemma not_usesRule_id (ha : a ∈ survey.candidates.values) :
    ¬trees.UsesRule fun l _ => l = a.id := by
  rintro ⟨tree, ht, huses⟩
  obtain ⟨cs, rfl, hcs⟩ := h.named tree ht
  rcases Node.usesRule_branch_iff.mp huses with heq | ⟨c, hc, huses⟩
  · obtain ⟨r, t, hok, hlt, hr⟩ := h.exists_get? ha
    rw [(Survey.id_of_ofForest_ok hok hlt hr).1] at heq
    exact NameSupply.nameAt_ne_rootLabel _ _ heq.symm
  · exact (hcs c hc).not_usesRule_label (h.label_ne_id ha) huses

lemma exists_applyCandidate (ha : a ∈ survey.candidates.values) (trees : Forest) :
    ∃ out, trees.applyCandidate a = .ok out :=
  Grouping.exists_apply (h.pattern_ne_nil ha) (h.id_not_mem_pattern ha ha) trees

/-- The labels of a candidate stand where it is recorded. -/
theorem isRun_of_mem_spansAt (ha : a ∈ survey.candidates.values) {site : Site} {span : Span}
    (hspan : span ∈ a.spansAt site) : ∃ n, trees.descend? site = some n ∧
      Grouping.IsRun a.grouping.pattern 0 (Forest.labels n.children) span := by
  obtain ⟨r, t, hok, -, hr⟩ := h.exists_get? ha
  exact Survey.isRun_of_mem_spansAt h.marked h.named hok hr hspan

lemma exists_mem_spansAt (ha : a ∈ survey.candidates.values) :
    ∃ site span, span ∈ a.spansAt site := by
  obtain ⟨r, t, hok, -, hr⟩ := h.exists_get? ha
  obtain ⟨p, hp, hpr, -⟩ := Survey.exists_place_of_ofForest_ok hok hr
  exact ⟨p.site, p.run.span,
    ((Survey.holdsPlaces_of_ofForest_ok hok hr).mem_spansAt _ _).mpr ⟨p.run, hp, hpr, rfl⟩⟩

lemma sources_nonempty (ha : a ∈ survey.candidates.values) : a.sources.isEmpty = false := by
  obtain ⟨r, t, hok, -, hr⟩ := h.exists_get? ha
  exact Survey.occurs_of_ofForest_ok hok hr

lemma mem_sources_keys_iff (ha : a ∈ survey.candidates.values) {site : Site} :
    site ∈ a.sources.keys ↔ a.spansAt site ≠ [] := by
  obtain ⟨r, t, hok, -, hr⟩ := h.exists_get? ha
  exact (Survey.holdsPlaces_of_ofForest_ok hok hr).sites site

lemma usesRule_pattern (ha : a ∈ survey.candidates.values) :
    trees.UsesRule fun _ ls => a.grouping.pattern <:+: ls := by
  obtain ⟨site, span, hspan⟩ := h.exists_mem_spansAt ha
  obtain ⟨n, hn, hrun⟩ := h.isRun_of_mem_spansAt ha hspan
  exact h.named.usesRule_iff_descend?.mpr ⟨site, n, hn, hrun.isInfix⟩

/-- After one candidate was applied another one has a run somewhere exactly if the first one leaves
it a place. -/
theorem usesRule_pattern_iff (ha : a ∈ survey.candidates.values)
    (hb : b ∈ survey.candidates.values) (ha2 : 2 ≤ a.length) (hb2 : 2 ≤ b.length)
    (happly : trees.applyCandidate a = .ok out) :
    (out.UsesRule fun _ ls => b.grouping.pattern <:+: ls) ↔ a.LeavesPlace b := by
  have hne := h.pattern_ne_nil ha
  obtain ⟨r, t, hok, -, hr⟩ := h.exists_get? ha
  obtain ⟨r', t', hok', -, hr'⟩ := h.exists_get? hb
  rw [Grouping.usesRule_apply_iff hne (h.id_not_mem_pattern ha ha) happly]
  unfold Grouping.RuleBefore
  rw [Forest.usesRule_congr fun l ls => Grouping.remains_iff hne (h.id_not_mem_pattern ha hb)
    (h.pattern_ne_nil hb) 0, h.named.usesRule_iff_descend?]
  constructor
  · rintro ⟨site, n, hn, t, ht, hall⟩
    refine ⟨site, t, ?_, ?_⟩
    · exact (Survey.mem_spansAt_iff_isRun h.marked h.named hok' hr' hb2 hn).mpr ht
    · rwa [Survey.apart_spansAt h.marked h.named hok hr ha2 hn]
  · rintro ⟨site, t, ht, hall⟩
    obtain ⟨n, hn, hrun⟩ := h.isRun_of_mem_spansAt hb ht
    rw [Survey.apart_spansAt h.marked h.named hok hr ha2 hn] at hall
    exact ⟨site, n, hn, t, hrun, hall⟩

/-- What is broken is left no place: at each of its sites the first span of the other candidate is
taken. -/
theorem not_leavesPlace_of_breaks (ha : a ∈ survey.candidates.values)
    (hb : b ∈ survey.candidates.values) (hbreaks : a.Breaks b) : ¬a.LeavesPlace b := by
  rintro ⟨site, t, ht, hall⟩
  obtain ⟨hsite, hcuts⟩ := hbreaks site ((h.mem_sources_keys_iff hb).mpr (List.ne_nil_of_mem ht))
  obtain ⟨m, htaken, hm⟩ := Span.exists_mem_apart ((h.mem_sources_keys_iff ha).mp hsite)
  obtain ⟨hmeets, hpart⟩ := Span.cuts_eq_true_iff.mp (hcuts m hm t ht)
  exact (hall m htaken).elim hmeets hpart

/-- What is broken meets a run of the other candidate without lying within it. -/
theorem exists_cut_of_breaks (ha : a ∈ survey.candidates.values)
    (hb : b ∈ survey.candidates.values) (hbreaks : a.Breaks b) :
    ∃ (ls : List String) (m t : Span), Grouping.IsRun a.grouping.pattern 0 ls m ∧
      Grouping.IsRun b.grouping.pattern 0 ls t ∧ m.cuts t = true := by
  obtain ⟨site, t, ht⟩ := h.exists_mem_spansAt hb
  obtain ⟨hsite, hcuts⟩ := hbreaks site ((h.mem_sources_keys_iff hb).mpr (List.ne_nil_of_mem ht))
  obtain ⟨m, hm⟩ := List.exists_mem_of_ne_nil _ ((h.mem_sources_keys_iff ha).mp hsite)
  obtain ⟨n, hn, hrun⟩ := h.isRun_of_mem_spansAt ha hm
  obtain ⟨n', hn', hrun'⟩ := h.isRun_of_mem_spansAt hb ht
  obtain rfl := Option.some.inj (hn.symm.trans hn')
  exact ⟨_, m, t, hrun, hrun', hcuts m hm t ht⟩

/-- A broken candidate has no run after the application of the other one. -/
theorem not_usesRule_of_breaks (ha : a ∈ survey.candidates.values)
    (hb : b ∈ survey.candidates.values) (hbreaks : a.Breaks b)
    (happly : trees.applyCandidate a = .ok out) :
    ¬out.UsesRule fun _ ls => b.grouping.pattern <:+: ls := by
  obtain ⟨ls, m, t, hm, ht, hcut⟩ := h.exists_cut_of_breaks ha hb hbreaks
  rw [Span.cuts_eq_true_iff, Span.isDisjoint_eq_true_iff, Span.contains_eq_true_iff] at hcut
  have hlastm := a.length_pattern ▸ hm.last
  have hlastt := b.length_pattern ▸ ht.last
  have hposa := a.length_pattern ▸ List.length_pos_of_ne_nil (h.pattern_ne_nil ha)
  have hposb := b.length_pattern ▸ List.length_pos_of_ne_nil (h.pattern_ne_nil hb)
  -- One position that is met is covered.
  have hb2 : 2 ≤ b.length := by omega
  by_cases ha2 : 2 ≤ a.length
  · rw [h.usesRule_pattern_iff ha hb ha2 hb2 happly]
    exact h.not_leavesPlace_of_breaks ha hb hbreaks
  · -- The one label of the first candidate is among those of the other.
    have hcovers : t.contains m = true := Span.contains_eq_true_iff.mpr (by omega)
    have hwithin := ht.infix_of_contains hm hcovers
    have honly := Grouping.onlyWhole_pattern (h.pattern_ne_nil ha) (h.id_not_mem_pattern ha ha) happly
    refine fun huses => honly (huses.mono fun _ ls hb => ⟨hwithin.trans hb, ?_⟩)
    rintro rfl
    have := hb.length_le
    rw [Candidate.length_pattern, Candidate.length_pattern] at this
    omega

end Surveyed

/-- If one candidate of a built forest is found to break another one, the other one has no run
anywhere after the first one was applied. -/
theorem breaking_leaves_no_run {s s₁ : Session} {trees : Forest} {survey : Survey}
    {a b : Candidate} (hbuilds : s.Builds trees) (hsurvey : s.survey trees = (.ok survey, s₁))
    (hlt : s₁.tables.names.next < wordMax) (ha : a ∈ survey.candidates.values)
    (hb : b ∈ survey.candidates.values) :
    ∃ v out, a.breaking b = .ok v ∧ trees.applyCandidate a = .ok out ∧
      (v.selfBreaksOther = true → ∀ site span run, ¬b.RunAt out site span run) := by
  obtain ⟨m, h⟩ := hbuilds.exists_surveyed hsurvey hlt
  obtain ⟨v, hv, hself, -⟩ := Candidate.breaking_eq_ok_of_occurs (b := b) (h.sources_nonempty ha)
  obtain ⟨out, hout⟩ := h.exists_applyCandidate ha trees
  refine ⟨v, out, hv, hout, fun htrue site span run hrun => ?_⟩
  have hproper := Grouping.proper_apply h.named.proper hout
  obtain ⟨n, hn, hnt, hlabels⟩ := Candidate.exists_runAt_iff.mp ⟨run, hrun⟩
  exact h.not_usesRule_of_breaks ha hb (hself.mp htrue) hout
    (Forest.usesRule_of_at? hproper hn hnt hlabels.isInfix)

/-- The forest of one example of three different tokens. -/
def chainTree : Forest :=
  [.branch "START" [.branch "t0" [.terminal "a"], .branch "t1" [.terminal "b"],
    .branch "t2" [.terminal "c"]]]

def chainSession : Session := { tables := { names := ⟨"t", 3⟩ } }

lemma builds_chainTree : Builds chainSession chainTree := by
  have hseed : ({} : Session).seed [["a", "b", "c"]] = (chainTree, chainSession) := by
    have hdistinct : distinctTokens [["a", "b", "c"]].flatten = ["a", "b", "c"] :=
      List.mergeSort_of_pairwise (by decide)
    rw [Session.seed, seedForest, hdistinct]
    rfl
  have hvalid : ({} : Settings).Valid := by decide
  have hbuilds := builds_seed hvalid [["a", "b", "c"]]
  rwa [hseed] at hbuilds

/-- Either neighbour can take the middle one of three tokens from the other. -/
theorem breaking_leaves_no_run_chainTree : ∃ survey s₁ a b v out, Builds chainSession chainTree ∧
    chainSession.survey chainTree = (.ok survey, s₁) ∧ s₁.tables.names.next < wordMax ∧
    survey.candidates.get? "t0t1" = some a ∧ survey.candidates.get? "t1t2" = some b ∧
    a.breaking b = .ok v ∧ v.selfBreaksOther = true ∧ chainTree.applyCandidate a = .ok out ∧
    ∀ site span run, ¬b.RunAt out site span run := by
  have hvalid : ({} : Settings).Valid := by decide
  have hwords : Survey.WithinWords {} chainTree := Survey.withinWords_of_le (by decide +kernel)
  have hok := Survey.ofForest_of_withinWords chainSession.tables hvalid hwords
  have hsurvey := (survey_eq_ok_iff (s := chainSession)).mpr ⟨_, hok, rfl⟩
  have hbreaks : ((chainTree.visits.foldl (Survey.Progress.enter {})
      { tables := chainSession.tables }).finish.candidates.get? "t0t1").bind (fun a =>
        ((chainTree.visits.foldl (Survey.Progress.enter {})
          { tables := chainSession.tables }).finish.candidates.get? "t1t2").map fun b =>
            (a.breaking b).toOption.map Breaking.selfBreaksOther) = some (some true) := by
    decide +kernel
  obtain ⟨a, ha, hbreaks⟩ := Option.bind_eq_some_iff.mp hbreaks
  obtain ⟨b, hb, hbreaks⟩ := Option.map_eq_some_iff.mp hbreaks
  have hlt : (chainTree.visits.foldl (Survey.Progress.enter {})
      { tables := chainSession.tables }).tables.names.next < wordMax := by decide +kernel
  obtain ⟨v, out, hv, hout, hnone⟩ := breaking_leaves_no_run builds_chainTree hsurvey hlt
    ((Catalogue.mem_values_iff _).mpr ⟨_, ha⟩) ((Catalogue.mem_values_iff _).mpr ⟨_, hb⟩)
  rw [hv] at hbreaks
  have hself : v.selfBreaksOther = true := Option.some.inj hbreaks
  exact ⟨_, _, a, b, v, out, builds_chainTree, hsurvey, hlt, ha, hb, hv, hself, hout, hnone hself⟩

end Session
end GrammarInduction
