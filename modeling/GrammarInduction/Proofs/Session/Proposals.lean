import GrammarInduction.Proofs.Session.Applications

/-!
The application of proposals. A pair is applied one candidate after the other; the first one always
gets a node, and the second one gets one exactly if the spans that the first one takes leave it a
place. That the ranking found evidence against a break is not enough for this.
-/
namespace GrammarInduction

def Forest.HasNonterminal (trees : Forest) (l : String) : Prop :=
  ∃ site n, trees.at? site = some n ∧ n.isTerminal = false ∧ n.label = l

lemma Forest.Named.hasNonterminal_iff {trees : Forest} {name : Nat → String} {m : Glossary}
    (h : trees.Named name m) {x : String} :
    trees.HasNonterminal x ↔ trees.UsesRule fun l _ => l = x := by
  constructor
  · rintro ⟨site, n, hn, hnt, hlabel⟩
    exact usesRule_of_at? h.proper hn hnt hlabel
  · intro huses
    obtain ⟨site, n, hn, hlabel⟩ := h.usesRule_iff_descend?.mp huses
    obtain ⟨hat, hnt⟩ := h.of_descend? hn
    exact ⟨site, n, hat, hnt, hlabel⟩

lemma Forest.applyProposal_single_eq_ok_iff {trees out : Forest} {c : Candidate} :
    trees.applyProposal (.single c) = .ok out ↔ trees.applyCandidate c = .ok out := by
  rw [applyProposal, Proposal.candidates, applyCandidates, Except.bind_eq_ok_iff]
  simp [applyCandidates]

lemma Forest.applyProposal_pair_eq_ok_iff {trees out : Forest} {a b : Candidate} :
    trees.applyProposal (.pair a b) = .ok out ↔
      ∃ mid, trees.applyCandidate a = .ok mid ∧ mid.applyCandidate b = .ok out := by
  rw [applyProposal, Proposal.candidates, applyCandidates, Except.bind_eq_ok_iff]
  simp only [applyCandidates, Except.bind_eq_ok_iff, Except.ok.injEq, exists_eq_right]

mutual
def Node.allLabels : Node → List String
  | ⟨l, _, cs⟩ => l :: allLabelsOf cs
def Node.allLabelsOf : List Node → List String
  | [] => []
  | n :: ns => n.allLabels ++ allLabelsOf ns
end

lemma Node.mem_allLabelsOf {ns : List Node} {n : Node} {x : String} (hn : n ∈ ns)
    (hx : x ∈ n.allLabels) : x ∈ allLabelsOf ns := by
  induction ns with
  | nil => exact absurd hn List.not_mem_nil
  | cons k ns ih =>
    rw [allLabelsOf, List.mem_append]
    rcases List.mem_cons.mp hn with rfl | hn
    · exact .inl hx
    · exact .inr (ih hn)

lemma Node.label_mem_of_at? {n k : Node} {path : List Nat} (h : n.at? path = some k) :
    k.label ∈ n.allLabels := by
  induction path generalizing n with
  | nil =>
    obtain rfl := Option.some.inj h
    obtain ⟨l, t, cs⟩ := n
    rw [allLabels]
    exact List.mem_cons_self
  | cons i path ih =>
    obtain ⟨l, t, cs⟩ := n
    obtain ⟨c, hc, hrest⟩ := Option.bind_eq_some_iff.mp h
    rw [allLabels]
    exact List.mem_cons_of_mem _ (mem_allLabelsOf (List.mem_of_getElem? hc) (ih hrest))

lemma Forest.label_mem_of_at? {trees : Forest} {site : Site} {k : Node}
    (h : trees.at? site = some k) : k.label ∈ Node.allLabelsOf trees := by
  obtain ⟨tree, htree, hpath⟩ := Option.bind_eq_some_iff.mp h
  exact Node.mem_allLabelsOf (List.mem_of_getElem? htree) (Node.label_mem_of_at? hpath)

namespace Session

variable {s s₁ s₂ s₃ : Session} {trees out : Forest} {survey : Survey} {m : Glossary}
  {a b : Candidate}

namespace Surveyed

variable (h : Surveyed s trees survey s₁ m)

include h

/-- Two candidates of a survey apply one after the other, in either order. -/
theorem exists_applyPair (ha : a ∈ survey.candidates.values)
    (hb : b ∈ survey.candidates.values) :
    ∃ mid out, trees.applyCandidate a = .ok mid ∧ mid.applyCandidate b = .ok out ∧
      trees.applyProposal (.pair a b) = .ok out := by
  obtain ⟨mid, hmid⟩ := h.exists_applyCandidate ha trees
  obtain ⟨out, hout⟩ := h.exists_applyCandidate hb mid
  exact ⟨mid, out, hmid, hout, Forest.applyProposal_pair_eq_ok_iff.mpr ⟨mid, hmid, hout⟩⟩

/-- The labels of nonterminals after both candidates of a pair were applied. -/
theorem usesRule_label_iff {mid : Forest} (ha : a ∈ survey.candidates.values)
    (hb : b ∈ survey.candidates.values) (ha2 : 2 ≤ a.length) (hb2 : 2 ≤ b.length)
    (hid : a.id ≠ b.id) (hmid : trees.applyCandidate a = .ok mid)
    (hout : mid.applyCandidate b = .ok out) :
    (out.UsesRule fun l _ => l = a.id) ∧
      ((out.UsesRule fun l _ => l = b.id) ↔ a.LeavesPlace b) := by
  have hfirst : ∀ {x}, (mid.UsesRule fun l _ => l = x) ↔ _ := fun {x} =>
    Grouping.usesRule_label_iff (x := x) (h.pattern_ne_nil ha) (h.id_not_mem_pattern ha ha) hmid
  have hsecond : ∀ {x}, (out.UsesRule fun l _ => l = x) ↔ _ := fun {x} =>
    Grouping.usesRule_label_iff (x := x) (h.pattern_ne_nil hb) (h.id_not_mem_pattern hb hb) hout
  constructor
  · exact hsecond.mpr (.inl (hfirst.mpr (.inr ⟨h.usesRule_pattern ha, rfl⟩)))
  · rw [hsecond, hfirst, h.usesRule_pattern_iff ha hb ha2 hb2 hmid]
    constructor
    · rintro ((huses | ⟨-, heq⟩) | ⟨hleaves, -⟩)
      · exact absurd huses (h.not_usesRule_id hb)
      · exact absurd heq hid
      · exact hleaves
    · exact fun hleaves => .inr ⟨hleaves, rfl⟩

end Surveyed

/-- A ranking at any time after the survey of a built forest. -/
theorem Builds.ranks {ranking : Ranking} (hbuilds : s.Builds trees)
    (hsurvey : s.survey trees = (.ok survey, s₁)) (hlt : s₁.tables.names.next < wordMax)
    (hsteps : Steps s₁ s₂) (hrank : s₂.rank survey = .ok (ranking, s₃)) :
    Ranking.Ranks s₂.settings survey.candidates.values ranking.proposals := by
  have hkeeps := hbuilds.keeps ((step_survey hsurvey).leadsTo.lt_of_lt hlt)
  exact ranks_of_rank hsurvey hlt ((hkeeps.reachable.step (step_survey hsurvey)).steps hsteps) hrank

/-- After a proposed pair was applied to a built forest there is a node with the first name, and one
with the second name exactly if the first candidate left the second one a place. -/
theorem pair_gets_nodes {ranking : Ranking} {e : RankedProposal} (hbuilds : s.Builds trees)
    (hsurvey : s.survey trees = (.ok survey, s₁)) (hlt : s₁.tables.names.next < wordMax)
    (hsteps : Steps s₁ s₂) (hrank : s₂.rank survey = .ok (ranking, s₃))
    (he : e ∈ ranking.proposals) (hpair : e.proposal = .pair a b) :
    ∃ out, trees.applyProposal e.proposal = .ok out ∧ out.HasNonterminal a.id ∧
      (out.HasNonterminal b.id ↔ a.LeavesPlace b) := by
  obtain ⟨m, h⟩ := hbuilds.exists_surveyed hsurvey hlt
  have hranks := hbuilds.ranks hsurvey hlt hsteps hrank
  obtain ⟨ha, hb, ha2, hb2, hid, -⟩ := hranks.pair_sound e he a b hpair
  obtain ⟨mid, out, hmid, hout, happly⟩ := h.exists_applyPair ha hb
  rw [← hpair] at happly
  obtain ⟨m', -, hnamed⟩ := named_applyProposal h.below h.named hsurvey hlt hranks he happly
  refine ⟨out, happly, ?_⟩
  rw [hnamed.hasNonterminal_iff, hnamed.hasNonterminal_iff]
  exact h.usesRule_label_iff ha hb ha2 hb2 hid hmid hout

/-- Settings that look for runs of two nodes only. -/
def runsOfTwo : Settings := { minLen := 2, maxLen := 2 }

/-- The forest of one example in which two tokens alternate. -/
def zigzagTree : Forest :=
  [.branch "START" [.branch "t0" [.terminal "a"], .branch "t1" [.terminal "b"],
    .branch "t0" [.terminal "a"], .branch "t1" [.terminal "b"],
    .branch "t0" [.terminal "a"], .branch "t1" [.terminal "b"]]]

def zigzagSession : Session := { settings := runsOfTwo, tables := { names := ⟨"t", 2⟩ } }

lemma builds_zigzagTree : Builds zigzagSession zigzagTree := by
  have hseed : ({ settings := runsOfTwo } : Session).seed [["a", "b", "a", "b", "a", "b"]] =
      (zigzagTree, zigzagSession) := by
    have hdistinct : distinctTokens [["a", "b", "a", "b", "a", "b"]].flatten = ["a", "b"] :=
      List.mergeSort_of_pairwise (by decide)
    rw [Session.seed, seedForest, hdistinct]
    rfl
  have hvalid : runsOfTwo.Valid := by decide
  have hbuilds := builds_seed hvalid [["a", "b", "a", "b", "a", "b"]]
  rwa [hseed] at hbuilds

def zigzagSurvey : Survey :=
  (zigzagTree.visits.foldl (Survey.Progress.enter runsOfTwo)
    { tables := zigzagSession.tables }).finish

lemma exists_survey_zigzagTree : ∃ s₁, zigzagSession.survey zigzagTree = (.ok zigzagSurvey, s₁) ∧
    s₁.tables.names.next < wordMax := by
  have hvalid : runsOfTwo.Valid := by decide
  have hwords : Survey.WithinWords runsOfTwo zigzagTree :=
    Survey.withinWords_of_le (by decide +kernel)
  have hok := Survey.ofForest_of_withinWords zigzagSession.tables hvalid hwords
  exact ⟨_, survey_eq_ok_iff.mpr ⟨_, hok, rfl⟩, by decide +kernel⟩

/-- The forest in which the first candidate took all tokens. -/
def groupedZigzag : Forest :=
  [.branch "START" (List.replicate 3
    (.branch "t2" [.branch "t0" [.terminal "a"], .branch "t1" [.terminal "b"]]))]

lemma pairsOf_zigzagSurvey :
    (Ranking.pairsOf runsOfTwo (Ranking.sortCandidates zigzagSurvey.candidates.values)).map
      (fun p => (p.second.id, [p.first.isSingle, p.second.isSingle],
        (zigzagTree.applyCandidates [p.first, p.second]).toOption)) =
      [("t3", [false, false], some groupedZigzag)] := by
  have hsorted : Ranking.sortCandidates zigzagSurvey.candidates.values =
      zigzagSurvey.candidates.values :=
    List.mergeSort_of_pairwise (by decide +kernel)
  rw [hsorted]
  decide +kernel

/-- The two candidates are proposed as a pair: some of their spans are disjoint. -/
theorem exists_rank_zigzagTree {s₁ : Session}
    (hsurvey : zigzagSession.survey zigzagTree = (.ok zigzagSurvey, s₁))
    (hlt : s₁.tables.names.next < wordMax) : ∃ ranking s₃ e a b,
      s₁.rank zigzagSurvey = .ok (ranking, s₃) ∧ e ∈ ranking.proposals ∧
      e.proposal = .pair a b ∧ b.id = "t3" ∧
      zigzagTree.applyProposal e.proposal = .ok groupedZigzag := by
  have hreachable : zigzagSession.Reachable :=
    ⟨runsOfTwo, ⟨"t", 2⟩, _, start_eq_ok_iff.mpr ⟨by decide, rfl⟩, .refl⟩
  have hs₁ := hreachable.step (step_survey hsurvey)
  have hrankable := rankable_of_survey hsurvey hlt
  obtain ⟨t, -, rfl⟩ := survey_eq_ok_iff.mp hsurvey
  obtain ⟨memo, -, heq⟩ := Ranking.ofCandidates_eq runsOfTwo hs₁.memo hrankable.occurs
  obtain ⟨p, hp, hvalues⟩ := List.map_eq_singleton_iff.mp pairsOf_zigzagSurvey
  obtain ⟨hid, ⟨hfirst, hsecond⟩, happly⟩ : p.second.id = "t3" ∧
      (p.first.isSingle = false ∧ p.second.isSingle = false) ∧
      (zigzagTree.applyCandidates [p.first, p.second]).toOption = some groupedZigzag := by
    simpa using hvalues
  have hpair : Ranking.proposalOf p = .pair p.first p.second :=
    Ranking.proposalOf_eq_pair_iff.mpr ⟨rfl, rfl, hfirst, hsecond⟩
  refine ⟨_, _, Ranking.toRanked p, p.first, p.second, rank_eq_ok_iff.mpr ⟨memo, heq, rfl⟩, ?_,
    hpair, hid, ?_⟩
  · have hchosen : Ranking.choose 100 [] [p] = Ranking.toRanked p :: Ranking.choose 99 [] [] :=
      Ranking.choose_of_pair hpair
    rw [Ranking.rankingOf, hp, Ranking.sortPairs, List.mergeSort_singleton]
    exact hchosen ▸ List.mem_cons_self
  · have hproposal : zigzagTree.applyProposal (Ranking.toRanked p).proposal =
        zigzagTree.applyCandidates [p.first, p.second] := by
      rw [Ranking.toRanked, hpair]
      rfl
    rw [hproposal]
    cases hout : zigzagTree.applyCandidates [p.first, p.second] with
    | error fault => simp [hout, Except.toOption] at happly
    | ok out => simpa [hout, Except.toOption] using happly

/-- The first candidate takes all tokens, and no node gets the second name. -/
theorem pair_without_second_node : ∃ s₁ ranking s₃ e a b out, Builds zigzagSession zigzagTree ∧
    zigzagSession.survey zigzagTree = (.ok zigzagSurvey, s₁) ∧ s₁.tables.names.next < wordMax ∧
    s₁.rank zigzagSurvey = .ok (ranking, s₃) ∧ e ∈ ranking.proposals ∧
    e.proposal = .pair a b ∧ zigzagTree.applyProposal e.proposal = .ok out ∧
    ∀ site n, out.at? site = some n → n.label ≠ b.id := by
  obtain ⟨s₁, hsurvey, hlt⟩ := exists_survey_zigzagTree
  obtain ⟨ranking, s₃, e, a, b, hrank, he, hpair, hb, happly⟩ :=
    exists_rank_zigzagTree hsurvey hlt
  refine ⟨s₁, ranking, s₃, e, a, b, _, builds_zigzagTree, hsurvey, hlt, hrank, he, hpair, happly,
    fun site n hn hlabel => ?_⟩
  have hmem := Forest.label_mem_of_at? hn
  rw [hlabel, hb] at hmem
  exact absurd hmem (by decide)

theorem pair_gets_nodes_zigzagTree : ∃ s₁ ranking s₃ e a b out, Builds zigzagSession zigzagTree ∧
    zigzagSession.survey zigzagTree = (.ok zigzagSurvey, s₁) ∧ s₁.tables.names.next < wordMax ∧
    Steps s₁ s₁ ∧ s₁.rank zigzagSurvey = .ok (ranking, s₃) ∧ e ∈ ranking.proposals ∧
    e.proposal = .pair a b ∧ zigzagTree.applyProposal e.proposal = .ok out ∧
    out.HasNonterminal a.id ∧ (out.HasNonterminal b.id ↔ a.LeavesPlace b) := by
  obtain ⟨s₁, hsurvey, hlt⟩ := exists_survey_zigzagTree
  obtain ⟨ranking, s₃, e, a, b, hrank, he, hpair, -⟩ := exists_rank_zigzagTree hsurvey hlt
  obtain ⟨out, happly, hnodes⟩ :=
    pair_gets_nodes builds_zigzagTree hsurvey hlt .refl hrank he hpair
  exact ⟨s₁, ranking, s₃, e, a, b, out, builds_zigzagTree, hsurvey, hlt, .refl, hrank, he, hpair,
    happly, hnodes⟩

end Session
end GrammarInduction
