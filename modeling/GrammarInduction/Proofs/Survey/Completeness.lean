import Mathlib.Data.Set.Card
import GrammarInduction.Proofs.Forest.Text
import GrammarInduction.Proofs.Survey.Account

/-!
Surveys are sound and complete. The candidates of a forest are the joined labels of its admissible
runs, apart from those that are only whole child lists, and each candidate holds exactly the
places at which its joined labels are admissible.
-/
namespace GrammarInduction
namespace Survey

structure Place where
  site : Site
  run : Run
  deriving DecidableEq, Repr

namespace Place

def children (trees : Forest) (p : Place) : List Node := (trees.descend? p.site).elim [] Node.children

def elements (trees : Forest) (p : Place) : List Node := p.run.elements (p.children trees)

def rendered (trees : Forest) (p : Place) : String := Forest.rendered (p.elements trees)

def IsWhole (trees : Forest) (p : Place) : Prop :=
  p.run.start = 0 ∧ p.run.stop = (p.children trees).length

/-- The run lies among the children of a site, has a length that the settings admit, is no lone
terminal, and derives balanced text. -/
structure Admissible (settings : Settings) (trees : Forest) (p : Place) : Prop where
  atSite : ∃ n, trees.descend? p.site = some n
  length : settings.Admits p.run.len
  fits : p.run.stop ≤ (p.children trees).length
  notLone : ∀ c, p.elements trees = [c] → c.isTerminal = false
  balanced : isBalanced (String.join ((p.elements trees).map Node.text)) = true

lemma children_of_descend? {trees : Forest} {p : Place} {n : Node}
    (h : trees.descend? p.site = some n) : p.children trees = n.children := by
  rw [children, h]
  rfl

lemma length_elements {trees : Forest} {p : Place} (h : p.run.stop ≤ (p.children trees).length) :
    (p.elements trees).length = p.run.len := Run.length_elements h

lemma mem_children_of_mem_elements {trees : Forest} {p : Place} {n : Node}
    (h : n ∈ p.elements trees) : n ∈ p.children trees := Run.mem_of_mem_elements h

end Place

/-- What a visit says of a run of elements. -/
theorem verdict_eq_admissible_iff {v : Visit} {r : Run} (hfits : r.stop ≤ v.size) :
    v.verdict r = .admissible ↔
      (∀ c, v.elements r = [c] → c.isTerminal = false) ∧
        isBalanced (String.join ((v.elements r).map Node.text)) = true := by
  have hlen : (v.elements r).length = r.len := Run.length_elements hfits
  have hlone : (r.len == 1 && (v.elements r).any Node.isTerminal) = false ↔
      ∀ c, v.elements r = [c] → c.isTerminal = false := by
    constructor
    · rintro h c hc
      rw [hc] at hlen h
      simpa [← hlen] using h
    · intro h
      by_cases h1 : r.len = 1
      · obtain ⟨c, hc⟩ := List.length_eq_one_iff.mp (hlen.trans h1)
        simp [hc, h c hc]
      · simp [h1]
  rw [← hlone]
  cases hl : (r.len == 1 && (v.elements r).any Node.isTerminal) with
  | true => simp [Visit.verdict, hl]
  | false =>
    cases hb : isBalanced (String.join ((v.elements r).map Node.text)) <;>
      simp [Visit.verdict, hl, hb]

namespace Find

def place (f : Find) : Place := ⟨f.site, f.run⟩

end Find

section

variable {settings : Settings} {trees : Forest}

lemma mem_finds_iff (ho : ∀ v ∈ trees.visits, overflows settings v = false) {f : Find} :
    f ∈ finds settings trees ↔ f.visit ∈ trees.visits ∧ f.run.start < f.visit.size ∧
      settings.Admits f.run.len ∧ f.run.stop ≤ f.visit.size ∧
      f.visit.verdict f.run = .admissible := by
  obtain ⟨v, r⟩ := f
  simp only [finds, findsAt, List.mem_flatMap, List.mem_map, List.mem_filter, decide_eq_true_eq]
  constructor
  · rintro ⟨w, hw, q, ⟨hq, hadm⟩, he⟩
    obtain ⟨rfl, rfl⟩ := Find.mk.inj he
    obtain ⟨hstart, hlen, hstop⟩ := (Settings.mem_runs_iff (ho w hw)).mp hq
    exact ⟨hw, hstart, hlen, hstop, hadm⟩
  · rintro ⟨hv, hstart, hlen, hstop, hadm⟩
    exact ⟨v, hv, r, ⟨(Settings.mem_runs_iff (ho v hv)).mpr ⟨hstart, hlen, hstop⟩, hadm⟩, rfl⟩

lemma children_place {f : Find} (hf : f.visit ∈ trees.visits) :
    f.place.children trees = f.visit.node.children :=
  Place.children_of_descend? (p := f.place) (Forest.descend?_of_mem_visits hf)

lemma elements_place {f : Find} (hf : f.visit ∈ trees.visits) :
    f.place.elements trees = f.elements := by
  rw [Place.elements, children_place hf]
  rfl

lemma rendered_place {f : Find} (hf : f.visit ∈ trees.visits) :
    f.place.rendered trees = f.rendered := by rw [Place.rendered, elements_place hf]; rfl

lemma isWhole_place_iff {f : Find} (hf : f.visit ∈ trees.visits) :
    f.place.IsWhole trees ↔ f.isWhole = true := by
  rw [Place.IsWhole, children_place hf]
  simp [Find.isWhole, Visit.isWhole, Find.place, Visit.size]

lemma admissible_place (ho : ∀ v ∈ trees.visits, overflows settings v = false) {f : Find}
    (hf : f ∈ finds settings trees) : f.place.Admissible settings trees := by
  obtain ⟨hv, -, hlen, hstop, hadm⟩ := (mem_finds_iff ho).mp hf
  obtain ⟨hlone, hbal⟩ := (verdict_eq_admissible_iff hstop).mp hadm
  refine ⟨⟨_, Forest.descend?_of_mem_visits hv⟩, hlen, ?_, ?_, ?_⟩
  · rw [children_place hv]; exact hstop
  · rw [elements_place hv]; exact hlone
  · rw [elements_place hv]; exact hbal

lemma exists_find (hs : settings.Valid) (ho : ∀ v ∈ trees.visits, overflows settings v = false)
    {p : Place} (hp : p.Admissible settings trees) : ∃ f ∈ finds settings trees, f.place = p := by
  obtain ⟨n, hn⟩ := hp.atSite
  obtain ⟨v, hv, hsite, hnode⟩ := Forest.exists_visit hn
  have hplace : Find.place ⟨v, p.run⟩ = p := by
    obtain ⟨site, run⟩ := p
    exact congrArg (Place.mk · run) hsite
  have hstop : p.run.stop ≤ v.size := by
    have := hp.fits
    rwa [← hplace, children_place hv] at this
  have hpos := hs.pos_of_admits hp.length
  refine ⟨⟨v, p.run⟩, (mem_finds_iff ho).mpr ⟨hv, ?_, hp.length, hstop, ?_⟩, hplace⟩
  · rw [Run.stop] at hstop; show p.run.start < v.size; omega
  · have hel : p.elements trees = v.elements p.run := by
      rw [← hplace, elements_place hv]; rfl
    exact (verdict_eq_admissible_iff hstop).mpr ⟨hel ▸ hp.notLone, hel ▸ hp.balanced⟩

lemma nodup_finds (ho : ∀ v ∈ trees.visits, overflows settings v = false) :
    ((finds settings trees).map Find.place).Nodup := by
  rw [finds, List.map_flatMap, List.nodup_flatMap]
  constructor
  · intro v hv
    rw [findsAt, List.map_map]
    exact ((Settings.nodup_runs (ho v hv)).filter _).map fun a b hab => (Place.mk.inj hab).2
  · have hsites := List.pairwise_map.mp (Forest.nodup_visits trees)
    refine hsites.imp fun {v w} hne p hv hw => ?_
    obtain ⟨f, hf, rfl⟩ := List.mem_map.mp hv
    obtain ⟨g, hg, hp⟩ := List.mem_map.mp hw
    obtain ⟨r, -, rfl⟩ := List.mem_map.mp hf
    obtain ⟨q, -, rfl⟩ := List.mem_map.mp hg
    exact hne (Place.mk.inj hp).1.symm

end

/-- A list without repetitions has as many members as it is long. -/
theorem encard_eq_length {α : Type _} {S : Set α} {l : List α} (hl : l.Nodup)
    (h : ∀ a, a ∈ S ↔ a ∈ l) : S.encard = l.length := by
  classical
  have hset : S = (l.toFinset : Set α) := by
    ext a
    rw [h, Finset.mem_coe, List.mem_toFinset]
  rw [hset, Set.encard_coe_eq_coe_finsetCard, List.toFinset_card_of_nodup hl]

/-- Runs of positive length have their own spans. -/
theorem run_eq_of_span {a b : Run} (ha : 0 < a.len) (hb : 0 < b.len) (h : a.span = b.span) :
    a = b := by
  obtain ⟨i, m⟩ := a
  obtain ⟨j, n⟩ := b
  simp only [Run.span, Run.stop, Span.mk.injEq] at h ha hb
  rw [Run.mk.injEq]
  omega

section

variable {settings : Settings} {trees : Forest} {tables : Tables}

/-- A candidate holds exactly the places with its joined labels. -/
structure HoldsPlaces (settings : Settings) (trees : Forest) (r : String) (c : Candidate) : Prop where
  rendered : c.rendered = r
  mem_spansAt : ∀ site span, span ∈ c.spansAt site ↔ ∃ run,
    (Place.mk site run).Admissible settings trees ∧ (Place.mk site run).rendered trees = r ∧
      run.span = span
  nodup_spansAt : ∀ site, (c.spansAt site).Nodup
  sites : ∀ site, site ∈ c.sources.keys ↔ c.spansAt site ≠ []
  occurrences : {p : Place | p.Admissible settings trees ∧ p.rendered trees = r}.encard =
    c.occurrences
  neighbourhoods : c.neighbourhoodTotal = c.occurrences

lemma holdsPlaces_of_tells (hs : settings.Valid)
    (ho : ∀ v ∈ trees.visits, overflows settings v = false) {r : String} {c : Candidate}
    (h : c.Tells (Progress.findsOf r (finds settings trees))) :
    HoldsPlaces settings trees r c := by
  have hplaces : ∀ p : Place, (p.Admissible settings trees ∧ p.rendered trees = r) ↔
      ∃ f ∈ Progress.findsOf r (finds settings trees), f.place = p := by
    intro p
    constructor
    · rintro ⟨hp, hr⟩
      obtain ⟨f, hf, rfl⟩ := exists_find hs ho hp
      have hv := ((mem_finds_iff ho).mp hf).1
      exact ⟨f, Progress.mem_findsOf.mpr ⟨hf, (rendered_place hv).symm.trans hr⟩, rfl⟩
    · rintro ⟨f, hf, rfl⟩
      obtain ⟨hf, hr⟩ := Progress.mem_findsOf.mp hf
      have hv := ((mem_finds_iff ho).mp hf).1
      exact ⟨admissible_place ho hf, (rendered_place hv).trans hr⟩
  have hnodup : ((Progress.findsOf r (finds settings trees)).map Find.place).Nodup :=
    (nodup_finds ho).sublist (List.filter_sublist.map _)
  have hpos : ∀ f ∈ Progress.findsOf r (finds settings trees), 0 < f.run.len := fun f hf =>
    hs.pos_of_admits ((mem_finds_iff ho).mp (Progress.mem_findsOf.mp hf).1).2.2.1
  refine ⟨h.rendered fun f hf => (Progress.mem_findsOf.mp hf).2, ?_, ?_, ?_, ?_, ?_⟩
  · intro site span
    rw [h.spans, List.mem_map]
    constructor
    · rintro ⟨f, hf, rfl⟩
      obtain ⟨hmem, hsite⟩ := List.mem_filter.mp hf
      obtain rfl : f.site = site := of_decide_eq_true hsite
      obtain ⟨hadm, hr⟩ := (hplaces f.place).mpr ⟨f, hmem, rfl⟩
      exact ⟨f.run, hadm, hr, rfl⟩
    · rintro ⟨run, hadm, hr, rfl⟩
      obtain ⟨f, hf, he⟩ := (hplaces _).mp ⟨hadm, hr⟩
      obtain ⟨hsite, hrun⟩ := Place.mk.inj he
      exact ⟨f, List.mem_filter.mpr ⟨hf, decide_eq_true hsite⟩, congrArg Run.span hrun⟩
  · intro site
    rw [h.spans]
    have hsub := List.pairwise_map.mp hnodup
    rw [List.Nodup, List.pairwise_map, List.pairwise_filter]
    refine hsub.imp_of_mem fun {f g} hf hg hne hfs hgs hspan => hne ?_
    have hrun := run_eq_of_span (hpos f hf) (hpos g hg) hspan
    rw [Find.place, Find.place, of_decide_eq_true hfs, of_decide_eq_true hgs, hrun]
  · intro site
    rw [h.sites, h.spans]
    simp [List.filter_eq_nil_iff]
  · refine (encard_eq_length hnodup fun p => (hplaces p).trans List.mem_map.symm).trans ?_
    rw [List.length_map, h.occurrences]
  · rw [Candidate.neighbourhoodTotal_eq_sum, h.neighbourhoods, h.occurrences]

end

section

variable {settings : Settings} {trees : Forest} {tables t : Tables} {s : Survey} {r : String}
  {c : Candidate}

lemma holdsPlaces_of_ofForest_ok (h : ofForest settings trees tables = (.ok s, t))
    (hc : s.candidates.get? r = some c) : HoldsPlaces settings trees r c := by
  obtain ⟨hs, ho⟩ := no_overflow_of_ofForest_ok h
  exact holdsPlaces_of_tells hs ho (tells_of_ofForest_ok h hc)

lemma exists_find_of_ofForest_ok (h : ofForest settings trees tables = (.ok s, t))
    (hc : s.candidates.get? r = some c) :
    ∃ f ∈ finds settings trees, f.rendered = r ∧ c.elements = f.elements := by
  obtain ⟨f, rest, hfs, hel⟩ := (tells_of_ofForest_ok h hc).first
  have hf : f ∈ Progress.findsOf r (finds settings trees) := hfs ▸ List.mem_cons_self
  obtain ⟨hmem, hr⟩ := Progress.mem_findsOf.mp hf
  exact ⟨f, hmem, hr, hel⟩

/-- A candidate of a finished survey occurs somewhere as a part of a child list. -/
theorem exists_place_not_whole (h : ofForest settings trees tables = (.ok s, t))
    (hc : s.candidates.get? r = some c) :
    ∃ p : Place, p.Admissible settings trees ∧ p.rendered trees = r ∧ ¬p.IsWhole trees := by
  obtain ⟨-, ho⟩ := no_overflow_of_ofForest_ok h
  obtain ⟨rfl, -⟩ := eq_finish_of_ofForest_ok h
  obtain ⟨-, f, hf, hwhole⟩ := (reflects_finds settings trees tables).get?_finish_iff.mp hc
  obtain ⟨hf, hr⟩ := Progress.mem_findsOf.mp hf
  have hv := ((mem_finds_iff ho).mp hf).1
  refine ⟨f.place, admissible_place ho hf, (rendered_place hv).trans hr, ?_⟩
  simp [isWhole_place_iff hv, hwhole]

lemma length_pos_of_ofForest_ok (h : ofForest settings trees tables = (.ok s, t))
    (hc : s.candidates.get? r = some c) : 0 < c.length := by
  obtain ⟨hs, ho⟩ := no_overflow_of_ofForest_ok h
  obtain ⟨f, hf, -, hel⟩ := exists_find_of_ofForest_ok h hc
  obtain ⟨hv, -, hlen, hstop, -⟩ := (mem_finds_iff ho).mp hf
  have hfits : f.place.run.stop ≤ (f.place.children trees).length := by
    rw [children_place hv]
    exact hstop
  have hcount := Place.length_elements hfits
  rw [elements_place hv, ← hel] at hcount
  rw [Candidate.length, hcount]
  exact hs.pos_of_admits hlen

lemma occurs_of_ofForest_ok (h : ofForest settings trees tables = (.ok s, t))
    (hc : s.candidates.get? r = some c) : c.sources.isEmpty = false := by
  have htells := tells_of_ofForest_ok h hc
  obtain ⟨f, rest, hfs, -⟩ := htells.first
  have hsite : f.site ∈ c.sources.keys := (htells.sites _).mpr ⟨f, hfs ▸ List.mem_cons_self, rfl⟩
  rw [Catalogue.isEmpty, ← Bool.not_eq_true, List.isEmpty_iff]
  intro hnil
  simp [Catalogue.keys, hnil] at hsite

end

/-- Two trees in which the run `ab` is a whole child list once and a part of one once. -/
def nestedTrees : Forest :=
  [.branch "START" [.branch "t1" [.terminal "a", .terminal "b"], .terminal "c"],
    .branch "START" [.terminal "a", .terminal "b", .terminal "c"]]

lemma withinWords_nestedTrees : WithinWords {} nestedTrees := withinWords_of_le (by decide)

end Survey
end GrammarInduction
