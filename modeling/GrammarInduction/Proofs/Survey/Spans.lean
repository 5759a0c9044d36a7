import GrammarInduction.Proofs.Candidate.Breaking
import GrammarInduction.Proofs.Forest.Rules
import GrammarInduction.Proofs.Survey.Matching

/-!
The spans of candidates as runs of labels. A candidate records the spans at a site from left to
right, so the spans that its grouping takes there are found among the recorded ones by keeping
whatever does not overlap.
-/
namespace GrammarInduction

namespace Node

variable {P : String → List String → Prop}

/-- The rules of a tree stand at the ends of the paths through nonterminals. -/
theorem usesRule_iff_descend? {n : Node} (hn : n.isTerminal = false) :
    n.UsesRule P ↔ ∃ path k, n.descend? path = some k ∧ P k.label (Forest.labels k.children) := by
  constructor
  · intro h
    clear hn
    induction h with
    | @here l cs h => exact ⟨[], .branch l cs, rfl, h⟩
    | @inside l cs c hc h ih =>
      obtain ⟨path, k, hk, hP⟩ := ih
      obtain ⟨i, hi⟩ := List.mem_iff_getElem?.mp hc
      have hnt : c.isTerminal = false := by cases h <;> rfl
      exact ⟨i :: path, k, descend?_cons_eq_some_iff.mpr ⟨c, hi, hnt, hk⟩, hP⟩
  · rintro ⟨path, k, hk, hP⟩
    induction path generalizing n with
    | nil =>
      obtain rfl := Option.some.inj hk
      obtain ⟨l, t, cs⟩ := n
      obtain rfl : t = false := hn
      exact .here hP
    | cons i path ih =>
      obtain ⟨c, hc, hnt, hd⟩ := descend?_cons_eq_some_iff.mp hk
      obtain ⟨l, t, cs⟩ := n
      obtain rfl : t = false := hn
      exact .inside (List.mem_of_getElem? hc) (ih hnt hd)

/-- Where terminals hold no children every nonterminal is reached through nonterminals. -/
theorem Proper.usesRule_of_at? {n k : Node} {path : List Nat} (hn : n.Proper)
    (hk : n.at? path = some k) (hnt : k.isTerminal = false)
    (hP : P k.label (Forest.labels k.children)) : n.UsesRule P := by
  induction path generalizing n with
  | nil =>
    obtain rfl := Option.some.inj hk
    cases hn with
    | terminal l => cases hnt
    | branch h => exact .here hP
  | cons i path ih =>
    obtain ⟨c, hc, hrest⟩ := Option.bind_eq_some_iff.mp hk
    have hmem := List.mem_of_getElem? hc
    cases hn with
    | terminal l => cases hmem
    | branch h => exact .inside hmem (ih (h c hmem) hrest)

lemma Proper.of_descend? {n k : Node} {path : List Nat} (hn : n.Proper)
    (h : n.descend? path = some k) : k.Proper := by
  induction path generalizing n with
  | nil => exact Option.some.inj h ▸ hn
  | cons i path ih =>
    obtain ⟨c, hc, -, hd⟩ := descend?_cons_eq_some_iff.mp h
    have hmem := List.mem_of_getElem? hc
    cases hn with
    | terminal l => cases hmem
    | branch hcs => exact ih (hcs c hmem) hd

lemma Named.proper {name : Nat → String} {m : Glossary} {n : Node} (h : n.Named name m) :
    n.Proper := by
  induction h with
  | @token i word hm => exact .branch fun c hc => List.mem_singleton.mp hc ▸ .terminal word
  | group _ _ ih => exact .branch ih

end Node

namespace Forest

variable {P : String → List String → Prop} {trees : Forest} {name : Nat → String} {m : Glossary}

lemma Named.proper (h : trees.Named name m) : ∀ tree ∈ trees, tree.Proper := by
  intro tree ht
  obtain ⟨cs, rfl, hcs⟩ := h tree ht
  exact .branch fun c hc => (hcs c hc).proper

lemma usesRule_of_at? (h : ∀ tree ∈ trees, tree.Proper) {site : Site} {k : Node}
    (hk : trees.at? site = some k) (hnt : k.isTerminal = false)
    (hP : P k.label (labels k.children)) : trees.UsesRule P := by
  obtain ⟨tree, htree, hpath⟩ := Option.bind_eq_some_iff.mp hk
  have hmem := List.mem_of_getElem? htree
  exact ⟨tree, hmem, (h tree hmem).usesRule_of_at? hpath hnt hP⟩

/-- Where terminals hold no children a site with children is a nonterminal. -/
theorem nonterminal_of_descend? (h : ∀ tree ∈ trees, tree.Proper) {site : Site} {k : Node}
    (hk : trees.descend? site = some k) (hcs : k.children ≠ []) :
    trees.at? site = some k ∧ k.isTerminal = false := by
  obtain ⟨tree, htree, hpath⟩ := descend?_eq_some_iff.mp hk
  refine ⟨at?_of_descend? hk, ?_⟩
  cases (h tree (List.mem_of_getElem? htree)).of_descend? hpath with
  | terminal l => exact absurd rfl hcs
  | branch _ => rfl

lemma usesRule_of_descend? (h : ∀ tree ∈ trees, tree.Proper) {site : Site} {k : Node}
    (hk : trees.descend? site = some k) (hcs : k.children ≠ [])
    (hP : P k.label (labels k.children)) : trees.UsesRule P := by
  obtain ⟨hat, hnt⟩ := nonterminal_of_descend? h hk hcs
  exact usesRule_of_at? h hat hnt hP

/-- The rules of a forest stand at its sites. -/
theorem Named.usesRule_iff_descend? (h : trees.Named name m) :
    trees.UsesRule P ↔ ∃ site k, trees.descend? site = some k ∧ P k.label (labels k.children) := by
  constructor
  · rintro ⟨tree, ht, huses⟩
    obtain ⟨cs, rfl, -⟩ := h tree ht
    obtain ⟨path, k, hk, hP⟩ := (Node.usesRule_iff_descend? rfl).mp huses
    obtain ⟨i, hi⟩ := List.mem_iff_getElem?.mp ht
    exact ⟨⟨i, path⟩, k, descend?_eq_some_iff.mpr ⟨_, hi, hk⟩, hP⟩
  · rintro ⟨site, k, hk, hP⟩
    obtain ⟨hat, hnt⟩ := h.of_descend? hk
    exact usesRule_of_at? h.proper hat hnt hP

end Forest

/-- A grouping matches where the labels below a nonterminal hold a run. -/
theorem Candidate.exists_runAt_iff {c : Candidate} {trees : Forest} {site : Site} {span : Span} :
    (∃ run, c.RunAt trees site span run) ↔ ∃ n, trees.at? site = some n ∧ n.isTerminal = false ∧
      Grouping.IsRun c.grouping.pattern 0 (Forest.labels n.children) span := by
  constructor
  · rintro ⟨run, n, hn, hnt, hmatch, hlast, -⟩
    rw [Grouping.matchesHere_iff, List.map_drop] at hmatch
    exact ⟨n, hn, hnt, Nat.zero_le _, hmatch, hlast.trans (by rw [length_pattern])⟩
  · rintro ⟨n, hn, hnt, -, hmatch, hlast⟩
    refine ⟨_, n, hn, hnt, ?_, hlast.trans (by rw [length_pattern]), rfl⟩
    rwa [Grouping.matchesHere_iff, List.map_drop]

/-- Runs are considered from left to right. -/
theorem Settings.pairwise_runs {s : Settings} {size : Nat} (h : (s.runs size).2 = false) :
    (s.runs size).1.Pairwise fun a b => a.start ≤ b.start := by
  rw [runs_of_no_overflow h, List.pairwise_flatMap]
  constructor
  · intro i _
    rw [List.pairwise_map]
    exact List.pairwise_of_forall fun _ _ => Nat.le_refl _
  · refine List.pairwise_lt_range.imp fun {i j} hij a ha b hb => ?_
    obtain ⟨m, -, rfl⟩ := List.mem_map.mp ha
    obtain ⟨n, -, rfl⟩ := List.mem_map.mp hb
    exact hij.le

namespace Survey

section

variable {names : NameSupply} {m : Glossary} {settings : Settings} {trees : Forest}
  {tables t : Tables} {s : Survey} {r : String} {c : Candidate}

/-- The finds at a site begin further and further to the right. -/
theorem pairwise_finds (ho : ∀ v ∈ trees.visits, overflows settings v = false) :
    (finds settings trees).Pairwise fun f g => f.site = g.site → f.run.start ≤ g.run.start := by
  rw [finds, List.pairwise_flatMap]
  constructor
  · intro v hv
    rw [findsAt, List.pairwise_map]
    refine ((Settings.pairwise_runs (ho v hv)).filter _).imp fun {a b} hle => ?_
    exact fun _ => hle
  · refine (List.pairwise_map.mp (Forest.nodup_visits trees)).imp fun {v w} hne f hf g hg hs => ?_
    obtain ⟨a, -, rfl⟩ := List.mem_map.mp hf
    obtain ⟨b, -, rfl⟩ := List.mem_map.mp hg
    exact absurd hs hne

lemma pairwise_spansAt (h : ofForest settings trees tables = (.ok s, t))
    (hc : s.candidates.get? r = some c) (site : Site) :
    (c.spansAt site).Pairwise fun a b => a.first ≤ b.first := by
  obtain ⟨-, ho⟩ := no_overflow_of_ofForest_ok h
  rw [(tells_of_ofForest_ok h hc).spans, List.pairwise_map]
  have hfinds : (Progress.findsOf r (finds settings trees)).Pairwise fun f g =>
      f.site = g.site → f.run.start ≤ g.run.start := (pairwise_finds ho).filter _
  refine (hfinds.filter _).imp_of_mem fun {f g} hf hg hle => hle ?_
  exact (of_decide_eq_true (List.mem_filter.mp hf).2).trans
    (of_decide_eq_true (List.mem_filter.mp hg).2).symm

variable (hmarked : names.Marked) (ht : trees.Named names.nameAt m)
  (h : ofForest settings trees tables = (.ok s, t)) (hc : s.candidates.get? r = some c)

include hmarked ht h hc

/-- Recorded spans hold runs. -/
theorem isRun_of_mem_spansAt {site : Site} {span : Span} (hspan : span ∈ c.spansAt site) :
    ∃ n, trees.descend? site = some n ∧
      Grouping.IsRun c.grouping.pattern 0 (Forest.labels n.children) span := by
  obtain ⟨n, hat, hnt, hrun⟩ :=
    Candidate.exists_runAt_iff.mp (exists_runAt_of_mem_spansAt hmarked ht h hc hspan)
  exact ⟨n, (ht.of_at? hat hnt).1, hrun⟩

/-- The spans of a candidate of two elements or more are those of all runs. -/
theorem mem_spansAt_iff_isRun (h2 : 2 ≤ c.length) {site : Site} {n : Node}
    (hn : trees.descend? site = some n) {span : Span} :
    span ∈ c.spansAt site ↔
      Grouping.IsRun c.grouping.pattern 0 (Forest.labels n.children) span := by
  obtain ⟨hat, hnt⟩ := ht.of_descend? hn
  rw [(recorded_iff_runAt hmarked ht h hc h2 site span).1, Candidate.exists_runAt_iff]
  constructor
  · rintro ⟨k, hk, -, hrun⟩
    obtain rfl := Option.some.inj (hk.symm.trans hat)
    exact hrun
  · exact fun hrun => ⟨n, hat, hnt, hrun⟩

/-- The spans at a site begin further and further to the right. -/
theorem pairwise_lt_spansAt (site : Site) :
    (c.spansAt site).Pairwise fun a b => a.first < b.first := by
  refine ((pairwise_spansAt h hc site).and
    ((holdsPlaces_of_ofForest_ok h hc).nodup_spansAt site)).imp_of_mem fun {a b} ha hb hab => ?_
  obtain ⟨_, -, hruna⟩ := isRun_of_mem_spansAt hmarked ht h hc ha
  obtain ⟨_, -, hrunb⟩ := isRun_of_mem_spansAt hmarked ht h hc hb
  have hlast := hruna.last
  have hlast' := hrunb.last
  refine Nat.lt_of_le_of_ne hab.1 fun heq => hab.2 ?_
  rw [Span.mk.injEq]
  exact ⟨heq, by omega⟩

/-- The spans that a grouping takes at a site, found among the recorded ones. -/
theorem apart_spansAt (h2 : 2 ≤ c.length) {site : Site} {n : Node}
    (hn : trees.descend? site = some n) :
    Span.apart (c.spansAt site) =
      Grouping.taken c.grouping.pattern 0 (Forest.labels n.children) := by
  exact Grouping.apartFrom_eq_taken (pattern_ne_nil_of_ofForest_ok h hc)
    (pairwise_lt_spansAt hmarked ht h hc site) fun span => mem_spansAt_iff_isRun hmarked ht h hc h2 hn

end

end Survey
end GrammarInduction
