import GrammarInduction.Proofs.Forest.Named
import GrammarInduction.Proofs.NameSupply.Decoding
import GrammarInduction.Proofs.Survey.Completeness
import GrammarInduction.Session

/-!
Surveys and groupings agree on named forests. There the joined labels of a run determine its
labels, and its labels determine its text, so a candidate of two elements or more is recorded
exactly where its grouping matches.
-/
namespace GrammarInduction

/-- The node at the end of a path of child positions. -/
def Node.at? : Node → List Nat → Option Node
  | n, [] => some n
  | n, i :: path => n.children[i]?.bind fun c => c.at? path

/-- The node with a site, also below a terminal. -/
def Forest.at? (trees : Forest) (site : Site) : Option Node :=
  trees[site.tree]?.bind fun n => n.at? site.path

@[simp] lemma Candidate.length_pattern (c : Candidate) :
    c.grouping.pattern.length = c.length := by
  rw [grouping, Forest.labels, List.length_map, length]

/-- At some span below a nonterminal the grouping of a candidate matches this run. -/
def Candidate.RunAt (c : Candidate) (trees : Forest) (site : Site) (span : Span)
    (run : List Node) : Prop :=
  ∃ n, trees.at? site = some n ∧ n.isTerminal = false ∧
    c.grouping.matchesHere (n.children.drop span.first) = true ∧
    span.last + 1 = span.first + c.length ∧ run = (n.children.drop span.first).take c.length

lemma Node.at?_of_descend? {n m : Node} {path : List Nat} (h : n.descend? path = some m) :
    n.at? path = some m := by
  induction path generalizing n with
  | nil => exact h
  | cons i path ih =>
    obtain ⟨c, hc, -, hd⟩ := descend?_cons_eq_some_iff.mp h
    rw [at?, hc]
    exact ih hd

lemma Forest.at?_of_descend? {trees : Forest} {site : Site} {k : Node}
    (h : trees.descend? site = some k) : trees.at? site = some k := by
  obtain ⟨tree, htree, hd⟩ := Forest.descend?_eq_some_iff.mp h
  exact Option.bind_eq_some_iff.mpr ⟨tree, htree, Node.at?_of_descend? hd⟩

lemma Node.isTerminal_of_descend? {n m : Node} {path : List Nat} (hn : n.isTerminal = false)
    (h : n.descend? path = some m) : m.isTerminal = false := by
  induction path generalizing n with
  | nil =>
    obtain rfl := Option.some.inj h
    exact hn
  | cons i path ih =>
    obtain ⟨c, -, hc, hd⟩ := descend?_cons_eq_some_iff.mp h
    exact ih hc hd

section

variable {name : Nat → String} {m : Glossary} {n k : Node} {path : List Nat}

/-- Below a named node there are named nodes and terminals without children. -/
theorem Node.Named.of_at? (hn : n.Named name m) (h : n.at? path = some k)
    (hk : k.isTerminal = false) : n.descend? path = some k ∧ k.Named name m := by
  induction path generalizing n with
  | nil =>
    obtain rfl := Option.some.inj h
    exact ⟨rfl, hn⟩
  | cons i path ih =>
    obtain ⟨c, hc, hrest⟩ := Option.bind_eq_some_iff.mp h
    have hmem := List.mem_of_getElem? hc
    cases hn with
    | @token j word hm =>
      obtain rfl : c = .terminal word := List.mem_singleton.mp hmem
      cases path with
      | nil =>
        obtain rfl := Option.some.inj hrest
        cases hk
      | cons j path => simp [at?] at hrest
    | @group j cs hcs hm =>
      have hnamed := hcs c hmem
      obtain ⟨-, -, -, ht⟩ := hnamed.exists_number
      obtain ⟨hd, hkn⟩ := ih hnamed hrest
      exact ⟨descend?_cons_eq_some_iff.mpr ⟨c, hc, ht, hd⟩, hkn⟩

/-- Below a root a nonterminal has named children, or one terminal. -/
theorem Node.children_of_at? {cs : List Node} (hcs : ∀ c ∈ cs, c.Named name m)
    (h : (Node.branch rootLabel cs).at? path = some k) (hk : k.isTerminal = false) :
    (Node.branch rootLabel cs).descend? path = some k ∧
      ((∀ c ∈ k.children, c.Named name m) ∨ ∃ word, k.children = [.terminal word]) := by
  cases path with
  | nil =>
    obtain rfl := Option.some.inj h
    exact ⟨rfl, .inl hcs⟩
  | cons i path =>
    obtain ⟨c, hc, hrest⟩ := Option.bind_eq_some_iff.mp h
    have hnamed := hcs c (List.mem_of_getElem? hc)
    obtain ⟨-, -, -, ht⟩ := hnamed.exists_number
    obtain ⟨hd, hkn⟩ := hnamed.of_at? hrest hk
    refine ⟨descend?_cons_eq_some_iff.mpr ⟨c, hc, ht, hd⟩, ?_⟩
    cases hkn with
    | token hm => exact .inr ⟨_, rfl⟩
    | group hks hm => exact .inl hks

namespace Forest.Named

variable {trees : Forest} {site : Site}

lemma mono {m' : Glossary} (h : trees.Named name m) (hm : m.Within m') : trees.Named name m' := by
  intro tree ht
  obtain ⟨cs, rfl, hcs⟩ := h tree ht
  exact ⟨cs, rfl, fun c hc => (hcs c hc).mono hm⟩

/-- Every nonterminal of a named forest is reached through nonterminals. -/
theorem of_at? (h : trees.Named name m) (hk : trees.at? site = some k)
    (ht : k.isTerminal = false) : trees.descend? site = some k ∧
      ((∀ c ∈ k.children, c.Named name m) ∨ ∃ word, k.children = [.terminal word]) := by
  obtain ⟨tree, htree, hpath⟩ := Option.bind_eq_some_iff.mp hk
  obtain ⟨cs, rfl, hcs⟩ := h tree (List.mem_of_getElem? htree)
  obtain ⟨hd, hchildren⟩ := Node.children_of_at? hcs hpath ht
  exact ⟨Forest.descend?_eq_some_iff.mpr ⟨_, htree, hd⟩, hchildren⟩

/-- The sites of a named forest are its nonterminals. -/
theorem of_descend? (h : trees.Named name m) (hk : trees.descend? site = some k) :
    trees.at? site = some k ∧ k.isTerminal = false := by
  obtain ⟨tree, htree, hd⟩ := Forest.descend?_eq_some_iff.mp hk
  obtain ⟨cs, rfl, -⟩ := h tree (List.mem_of_getElem? htree)
  exact ⟨Forest.at?_of_descend? hk, Node.isTerminal_of_descend? rfl hd⟩

end Forest.Named

end

namespace Survey

section

variable {names : NameSupply} {m : Glossary} {settings : Settings} {trees : Forest}
  {tables t : Tables} {s : Survey} {r : String} {c : Candidate}

lemma isNames_labels {ns : List Node} (h : ∀ n ∈ ns, n.Named names.nameAt m) :
    names.IsNames (Forest.labels ns) := by
  intro label hl
  obtain ⟨n, hn, rfl⟩ := List.mem_map.mp hl
  obtain ⟨i, hi, -, -⟩ := (h n hn).exists_number
  exact ⟨i, hi⟩

/-- The elements of a run are named unless it is a lone terminal. -/
theorem named_elements (ht : trees.Named names.nameAt m) {p : Place} {k : Node}
    (hk : trees.descend? p.site = some k) (hfits : p.run.stop ≤ (p.children trees).length)
    (hpos : 0 < p.run.len) (hlone : ∀ c, p.elements trees = [c] → c.isTerminal = false) :
    ∀ n ∈ p.elements trees, n.Named names.nameAt m := by
  have hchildren := Place.children_of_descend? hk
  obtain ⟨hat, hnt⟩ := ht.of_descend? hk
  rcases (ht.of_at? hat hnt).2 with hnamed | ⟨word, hword⟩
  · intro n hn
    exact hnamed n (hchildren ▸ Place.mem_children_of_mem_elements hn)
  · rw [hchildren, hword, List.length_singleton, Run.stop] at hfits
    have hstart : p.run.start = 0 := by omega
    have hlen : p.run.len = 1 := by omega
    have hterminal : p.elements trees = [.terminal word] := by
      rw [Place.elements, hchildren, hword, Run.elements, hstart, hlen]
      rfl
    exact absurd (hlone _ hterminal) (by simp)

lemma named_elements_of_admissible (ht : trees.Named names.nameAt m) {p : Place}
    (hp : p.Admissible settings trees) (hpos : 0 < p.run.len) :
    ∀ n ∈ p.elements trees, n.Named names.nameAt m := by
  obtain ⟨k, hk⟩ := hp.atSite
  exact named_elements ht hk hp.fits hpos hp.notLone

lemma exists_place_of_ofForest_ok (h : ofForest settings trees tables = (.ok s, t))
    (hc : s.candidates.get? r = some c) :
    ∃ p : Place, p.Admissible settings trees ∧ p.rendered trees = r ∧
      p.elements trees = c.elements ∧ p.run.len = c.length ∧ 0 < p.run.len := by
  obtain ⟨hs, ho⟩ := no_overflow_of_ofForest_ok h
  obtain ⟨f, hf, hr, hel⟩ := exists_find_of_ofForest_ok h hc
  have hv := ((mem_finds_iff ho).mp hf).1
  have hp := admissible_place ho hf
  have helements : f.place.elements trees = c.elements := (elements_place hv).trans hel.symm
  refine ⟨f.place, hp, (rendered_place hv).trans hr, helements, ?_, hs.pos_of_admits hp.length⟩
  rw [Candidate.length, ← helements, Place.length_elements hp.fits]

lemma pattern_ne_nil_of_ofForest_ok (h : ofForest settings trees tables = (.ok s, t))
    (hc : s.candidates.get? r = some c) : c.grouping.pattern ≠ [] := by
  rw [← List.length_pos_iff, Candidate.length_pattern]
  exact length_pos_of_ofForest_ok h hc

/-- A run of two elements or more with the labels of an admissible one is admissible, and derives
the same texts. -/
theorem admissible_of_labels (ht : trees.Named names.nameAt m) {p q : Place} {k : Node}
    (hp : p.Admissible settings trees) (h2 : 2 ≤ q.run.len) (hlen : p.run.len = q.run.len)
    (hk : trees.descend? q.site = some k) (hfits : q.run.stop ≤ (q.children trees).length)
    (hlabels : Forest.labels (q.elements trees) = Forest.labels (p.elements trees)) :
    q.Admissible settings trees ∧
      (q.elements trees).map Node.text = (p.elements trees).map Node.text := by
  have hlone : ∀ c, q.elements trees = [c] → c.isTerminal = false := by
    intro c hc
    have hcount := Place.length_elements hfits
    rw [hc, List.length_singleton] at hcount
    omega
  have htexts := Node.Named.texts_eq (fun _ _ => NameSupply.nameAt_injective)
    (named_elements ht hk hfits (by omega) hlone)
    (named_elements_of_admissible ht hp (by omega)) hlabels
  exact ⟨⟨⟨k, hk⟩, hlen ▸ hp.length, hfits, hlone, htexts ▸ hp.balanced⟩, htexts⟩

/-- In a named forest the grouping of a candidate matches at the places of its labels. -/
theorem runAt_iff (ht : trees.Named names.nameAt m) (hpos : 0 < c.length) {site : Site}
    {span : Span} {run : List Node} :
    c.RunAt trees site span run ↔ ∃ q : Place, q.site = site ∧ q.run.span = span ∧
      q.run.len = c.length ∧ (∃ n, trees.descend? q.site = some n) ∧
      q.run.stop ≤ (q.children trees).length ∧
      Forest.labels (q.elements trees) = Forest.labels c.elements ∧ run = q.elements trees := by
  constructor
  · rintro ⟨n, hat, hnt, hmatch, hlast, rfl⟩
    obtain ⟨hd, -⟩ := ht.of_at? hat hnt
    have hchildren := Place.children_of_descend? (p := ⟨site, ⟨span.first, c.length⟩⟩) hd
    have hprefix := Grouping.startsWith_iff.mp hmatch
    have hlen := hprefix.length_le
    have htake := List.prefix_iff_eq_take.mp hprefix
    simp only [Candidate.grouping, Forest.labels, List.length_map, List.length_drop] at hlen htake
    refine ⟨⟨site, ⟨span.first, c.length⟩⟩, rfl, ?_, rfl, ⟨n, hd⟩, ?_, ?_, ?_⟩
    · obtain ⟨first, last⟩ := span
      simp only [Run.span, Run.stop, Span.mk.injEq, true_and]
      simp only at hlast
      omega
    · rw [hchildren, Run.stop]
      rw [Candidate.length] at hpos ⊢
      dsimp only
      omega
    · rw [Place.elements, hchildren, Run.elements, Forest.labels, Forest.labels, List.map_take]
      exact htake.symm
    · rw [Place.elements, hchildren]
      rfl
  · rintro ⟨⟨site, ⟨start, len⟩⟩, rfl, rfl, rfl, ⟨n, hd⟩, hfits, hlabels, rfl⟩
    obtain ⟨hat, hnt⟩ := ht.of_descend? hd
    have hchildren := Place.children_of_descend? (p := ⟨site, ⟨start, c.length⟩⟩) hd
    refine ⟨n, hat, hnt, ?_, ?_, ?_⟩
    · rw [Place.elements, hchildren, Run.elements] at hlabels
      rw [Grouping.matchesHere, Grouping.startsWith_iff, Candidate.grouping, ← hlabels,
        Forest.labels, List.map_take]
      exact List.take_prefix _ _
    · simp only [Run.span, Run.stop]
      omega
    · rw [Place.elements, hchildren]
      rfl

/-- In a named forest the grouping of a candidate matches wherever the candidate is recorded. -/
theorem exists_runAt_of_mem_spansAt (hmarked : names.Marked) (ht : trees.Named names.nameAt m)
    (h : ofForest settings trees tables = (.ok s, t)) (hc : s.candidates.get? r = some c)
    {site : Site} {span : Span} (hspan : span ∈ c.spansAt site) :
    ∃ run, c.RunAt trees site span run := by
  obtain ⟨p, hp, hpr, hpel, hplen, hpos⟩ := exists_place_of_ofForest_ok h hc
  obtain ⟨run, hq, hqr, rfl⟩ := (holdsPlaces_of_ofForest_ok h hc).mem_spansAt _ _ |>.mp hspan
  have hqpos : 0 < run.len := (no_overflow_of_ofForest_ok h).1.pos_of_admits hq.length
  have hlabels : Forest.labels (Place.elements trees ⟨site, run⟩) =
      Forest.labels (p.elements trees) := by
    -- All labels are names here, and joined names can be told apart again.
    refine NameSupply.eq_of_join_eq hmarked
      (isNames_labels (named_elements_of_admissible ht hq hqpos))
      (isNames_labels (named_elements_of_admissible ht hp hpos)) ?_
    exact hqr.trans hpr.symm
  have hlen : run.len = c.length := by
    have hcount := congrArg List.length hlabels
    rw [Forest.labels, Forest.labels, List.length_map, List.length_map,
      Place.length_elements hq.fits, Place.length_elements hp.fits] at hcount
    exact hcount.trans hplen
  exact ⟨_, (runAt_iff ht (by omega)).mpr
    ⟨⟨site, run⟩, rfl, rfl, hlen, hq.atSite, hq.fits, hlabels.trans (by rw [hpel]), rfl⟩⟩

/-- In a named forest a candidate of two elements or more is recorded where its grouping matches,
and its text is that of every run there. -/
theorem recorded_iff_runAt (hmarked : names.Marked) (ht : trees.Named names.nameAt m)
    (h : ofForest settings trees tables = (.ok s, t)) (hc : s.candidates.get? r = some c)
    (h2 : 2 ≤ c.length) (site : Site) (span : Span) :
    (span ∈ c.spansAt site ↔ ∃ run, c.RunAt trees site span run) ∧
      ∀ run, c.RunAt trees site span run → Forest.text run = c.text := by
  obtain ⟨p, hp, hpr, hpel, hplen, -⟩ := exists_place_of_ofForest_ok h hc
  have hsame : ∀ q : Place, q.run.len = c.length → q.run.stop ≤ (q.children trees).length →
      (∃ n, trees.descend? q.site = some n) →
      Forest.labels (q.elements trees) = Forest.labels c.elements →
      q.Admissible settings trees ∧
        (q.elements trees).map Node.text = c.elements.map Node.text := by
    intro q hqlen hfits hsite hlabels
    obtain ⟨n, hd⟩ := hsite
    rw [← hpel] at hlabels ⊢
    exact admissible_of_labels ht hp (by omega) (by omega) hd hfits hlabels
  constructor
  · constructor
    · exact exists_runAt_of_mem_spansAt hmarked ht h hc
    · rintro ⟨run, hrun⟩
      obtain ⟨⟨_, q⟩, rfl, rfl, hlen, hsite, hfits, hlabels, rfl⟩ :=
        (runAt_iff ht (by omega)).mp hrun
      refine ((holdsPlaces_of_ofForest_ok h hc).mem_spansAt _ _).mpr
        ⟨q, (hsame _ hlen hfits hsite hlabels).1, ?_, rfl⟩
      rw [← hpr, Place.rendered, Place.rendered, Forest.rendered, Forest.rendered, hlabels, hpel]
  · intro run hrun
    obtain ⟨q, -, -, hlen, hsite, hfits, hlabels, rfl⟩ := (runAt_iff ht (by omega)).mp hrun
    rw [Candidate.text, Forest.text_eq_join, Forest.text_eq_join,
      (hsame q hlen hfits hsite hlabels).2]

end

end Survey
end GrammarInduction
