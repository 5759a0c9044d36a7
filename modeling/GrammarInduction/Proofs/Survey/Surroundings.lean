import Mathlib.Data.List.DropRight
import GrammarInduction.Proofs.Survey.Completeness
import GrammarInduction.Proofs.Survey.Found

/-!
The neighbourhoods that a survey records. A visit reads a window of the children around a run and
adds its edges under conditions on positions; what comes out are the nearest of all neighbours, and
the edges are the ends of the tree just where the path to the node keeps to that end. A candidate
counts each neighbourhood as often as its finds have it.
-/
namespace GrammarInduction

namespace Visit

variable {v : Visit} {symbols : List Neighbour} {r : Run}

/-- A run has the nearest of all neighbours, with the edges at both ends: a side that four children
fill has no room for its edge. -/
theorem neighbourhood_eq (h : r.stop ≤ symbols.length) :
    v.neighbourhood symbols r =
      ⟨(v.left :: symbols.take r.start).rtake 4, (symbols.drop r.stop ++ [v.right]).take 4⟩ := by
  have hstart : r.start ≤ symbols.length := Nat.le_trans (Nat.le_add_right _ _) h
  have hleft : Neighbourhood.lastOf ((if r.start < 4 then [v.left] else []) ++
      (symbols.take r.start).drop (r.start - 4)) = (v.left :: symbols.take r.start).rtake 4 := by
    have hlen : (symbols.take r.start).length = r.start := List.length_take_of_le hstart
    by_cases hs : r.start < 4
    · rw [if_pos hs, Nat.sub_eq_zero_of_le (Nat.le_of_lt hs), List.drop_zero]
      rfl
    · rw [if_neg hs, List.nil_append, Neighbourhood.lastOf, List.drop_drop, List.length_drop, hlen,
        List.rtake, List.length_cons, hlen, Neighbourhood.width]
      have h1 : r.start - 4 + (r.start - (r.start - 4) - 4) = r.start - 4 := by omega
      have h2 : r.start + 1 - 4 = r.start - 4 + 1 := by omega
      rw [h1, h2, List.drop_succ_cons]
  have hright : ((symbols.take (min symbols.length (r.stop + 4))).drop r.stop ++
      (if min symbols.length (r.stop + 4) = symbols.length then [v.right] else [])).take 4 =
        (symbols.drop r.stop ++ [v.right]).take 4 := by
    by_cases hs : symbols.length ≤ r.stop + 4
    · rw [Nat.min_eq_left hs, if_pos rfl, List.take_length]
    · rw [Nat.min_eq_right (by omega), if_neg (by omega), List.append_nil, List.drop_take,
        List.take_take, List.take_append_of_le_length (by rw [List.length_drop]; omega)]
      congr 1
      omega
  rw [neighbourhood, Neighbourhood.nearest]
  exact congrArg₂ Neighbourhood.mk hleft hright

/-- A path of first children keeps what stands to the left of its start. -/
theorem left_follow? {v w : Visit} {path : List Nat} (h : v.follow? path = some w) :
    w.left = if path.all (· == 0) then v.left else .hidden := by
  induction path generalizing v with
  | nil =>
    obtain rfl := Option.some.inj h
    rfl
  | cons i path ih =>
    obtain ⟨u, hu, hw⟩ := Option.bind_eq_some_iff.mp h
    rw [ih hw, (child?_frame hu).1, List.all_cons]
    by_cases hi : i = 0 <;> simp [hi]

end Visit

/-- Whether a path takes the last child each time. -/
def Node.keepsRight : Node → List Nat → Bool
  | _, [] => true
  | n, i :: path =>
    match n.children[i]? with
    | some c => i + 1 == n.children.length && c.keepsRight path
    | none => false

/-- A path of last children keeps what stands to the right of its start. -/
theorem Visit.right_follow? {v w : Visit} {path : List Nat} (h : v.follow? path = some w) :
    w.right = if v.node.keepsRight path then v.right else .hidden := by
  induction path generalizing v with
  | nil =>
    obtain rfl := Option.some.inj h
    rfl
  | cons i path ih =>
    obtain ⟨u, hu, hw⟩ := Option.bind_eq_some_iff.mp h
    rw [ih hw, (child?_frame hu).2, Node.keepsRight, (child?_eq_some hu).1, Visit.size]
    by_cases hi : i + 1 = v.node.children.length <;> simp [hi]

namespace Survey

namespace Place

/-- What stands to the left of the children: the end of the tree, if the path to the site takes
first children only. -/
def left (p : Place) : Neighbour := if p.site.path.all (· == 0) then .start else .hidden

/-- What stands to the right of them: the end of the tree, if the path takes last children only. -/
def right (trees : Forest) (p : Place) : Neighbour :=
  if (trees[p.site.tree]?).any fun n => n.keepsRight p.site.path then .stop else .hidden

/-- The true neighbourhood of the run: the last four of the left edge and all children before the
run, and the first four of all children behind it and the right edge. -/
def neighbourhood (t : SymbolTable) (trees : Forest) (p : Place) : Neighbourhood where
  left := (p.left :: ((Forest.labels (p.children trees)).take p.run.start).map t.neighbour).rtake 4
  right := (((Forest.labels (p.children trees)).drop p.run.stop).map t.neighbour ++
    [p.right trees]).take 4

variable {t t' : SymbolTable} {trees : Forest} {p : Place}

/-- More symbols make no difference to children that are known. -/
theorem neighbourhood_of_within (h : t.Within t')
    (hl : ∀ label ∈ Forest.labels (p.children trees), label ∈ t.labels) :
    p.neighbourhood t' trees = p.neighbourhood t trees := by
  have hsame : ∀ labels : List String, labels ⊆ Forest.labels (p.children trees) →
      labels.map t'.neighbour = labels.map t.neighbour := by
    intro labels hsub
    refine List.map_congr_left fun label hlabel => ?_
    rw [SymbolTable.neighbour, SymbolTable.neighbour, h.numberOf_eq (hl label (hsub hlabel))]
  rw [neighbourhood, neighbourhood, hsame _ (List.take_subset _ _), hsame _ (List.drop_subset _ _)]

end Place

section

variable {trees : Forest} {f : Find}

lemma left_place (hf : f.visit ∈ trees.visits) : f.visit.left = f.place.left := by
  obtain ⟨k, n, path, -, hp⟩ := Forest.mem_visits_iff.mp hf
  have hsite : f.place.site = ⟨k, path⟩ := (Visit.follow?_eq_some hp).2.1
  rw [Visit.left_follow? hp, Place.left, hsite]
  rfl

lemma right_place (hf : f.visit ∈ trees.visits) : f.visit.right = f.place.right trees := by
  obtain ⟨k, n, path, hn, hp⟩ := Forest.mem_visits_iff.mp hf
  have hsite : f.place.site = ⟨k, path⟩ := (Visit.follow?_eq_some hp).2.1
  rw [Visit.right_follow? hp, Place.right, hsite, hn]
  rfl

/-- A visit reads the true neighbourhood of a run that fits. -/
theorem neighbourhood_place (hf : f.visit ∈ trees.visits) (hfits : f.run.stop ≤ f.visit.size)
    (t : SymbolTable) :
    f.visit.neighbourhood (f.visit.labels.map t.neighbour) f.run = f.place.neighbourhood t trees := by
  have hlen : f.run.stop ≤ (f.visit.labels.map t.neighbour).length := by
    rwa [List.length_map, Visit.labels, Forest.labels, List.length_map]
  rw [Visit.neighbourhood_eq hlen, left_place hf, right_place hf, Place.neighbourhood,
    children_place hf, ← List.map_take, ← List.map_drop]
  rfl

end

end Survey

/-- How often a neighbourhood was recorded. -/
def Candidate.multiplicity (c : Candidate) (n : Neighbourhood) : Nat :=
  (c.neighbourhoods.get? n).getD 0

/-- A record adds one to the neighbourhood that it is given, and nothing to others. -/
theorem Candidate.multiplicity_record (c : Candidate) (s : Site) (r : Span) (n m : Neighbourhood)
    (d : Nat) :
    (c.record s r n d).multiplicity m = c.multiplicity m + if n = m then 1 else 0 := by
  have hget : (c.record s r n d).neighbourhoods.get? m =
      if m = n then some ((c.neighbourhoods.get? n).getD 0 + 1) else c.neighbourhoods.get? m :=
    Catalogue.get?_upsert _ _ _ _
  rw [multiplicity, hget]
  by_cases h : m = n
  · subst h
    rw [if_pos rfl, if_pos rfl]
    rfl
  · rw [if_neg h, if_neg (Ne.symm h)]
    rfl

namespace Survey

/-- A survey on its way counts the neighbourhoods of the finds that it made. -/
structure Progress.Surrounds (trees : Forest) (p : Progress) (done : List Find) : Prop
    extends p.Reflects done where
  interned : ∀ f ∈ done, ∀ label ∈ Forest.labels (f.place.children trees),
    label ∈ p.tables.symbols.labels
  multiplicity : ∀ r c, p.candidates.get? r = some c → ∀ n, c.multiplicity n =
    (Progress.findsOf r done).countP fun f => f.place.neighbourhood p.tables.symbols trees = n

namespace Progress

variable {trees : Forest} {p : Progress} {done : List Find}

lemma surrounds_start (trees : Forest) (tables : Tables) :
    ({ tables } : Progress).Surrounds trees [] where
  toReflects := reflects_start tables
  interned := nofun
  multiplicity r c h := by simp at h

lemma Surrounds.congr (h : p.Surrounds trees done) {q : Progress}
    (hc : q.candidates = p.candidates) (hw : q.wrappers = p.wrappers)
    (hs : p.tables.symbols.Within q.tables.symbols) : q.Surrounds trees done where
  known := by rw [hc]; exact h.known
  tells := by rw [hc]; exact h.tells
  wrappers := by rw [hw]; exact h.wrappers
  interned f hf label hl := hs.mem (h.interned f hf label hl)
  multiplicity r c hr n := by
    rw [hc] at hr
    rw [h.multiplicity r c hr n]
    refine List.countP_congr fun f hf => ?_
    rw [Place.neighbourhood_of_within hs (h.interned f (mem_findsOf.mp hf).1)]

/-- A find counts once, for its own neighbourhood. -/
theorem Surrounds.record (h : p.Surrounds trees done) {f : Find} (hf : f.visit ∈ trees.visits)
    (hfits : f.run.stop ≤ f.visit.size)
    (hinterned : ∀ label ∈ f.visit.labels, label ∈ p.tables.symbols.labels) :
    (p.record f.visit (f.visit.labels.map p.tables.symbols.neighbour) f.run).Surrounds trees
      (done ++ [f]) where
  toReflects := h.toReflects.record f _
  interned g hg label hl := by
    rw [tables_record]
    rcases List.mem_append.mp hg with hg | hg
    · exact h.interned g hg label hl
    · obtain rfl := List.mem_singleton.mp hg
      rw [children_place hf] at hl
      exact hinterned label hl
  multiplicity r c hc n := by
    rw [candidates_record, Catalogue.get?_insert] at hc
    rw [tables_record]
    by_cases hr : r = f.rendered
    · subst hr
      obtain rfl := Option.some.inj ((if_pos rfl).symm.trans hc)
      have hbefore : (p.candidateFor f.visit f.run f.rendered).1.multiplicity n =
          (findsOf f.rendered done).countP fun g =>
            g.place.neighbourhood p.tables.symbols trees = n := by
        cases hk : p.candidates.get? f.rendered with
        | some c =>
          rw [candidateFor_known hk]
          exact h.multiplicity _ c hk n
        | none =>
          rw [candidateFor_new hk, h.findsOf_eq_nil hk]
          rfl
      rw [recorded, Candidate.multiplicity_record, hbefore, neighbourhood_place hf hfits,
        findsOf_concat_self, List.countP_append, List.countP_singleton]
      simp
    · rw [findsOf_concat_of_ne hr]
      exact h.multiplicity r c (by simpa [hr] using hc) n

lemma kept_surrounds (settings : Settings) (trees : Forest) :
    Kept settings trees.visits (Surrounds trees) where
  congr h hc hw _ hs := h.congr hc hw hs
  record _ hf hr hlabels h := h.record hf (Settings.stop_le_of_mem_runs hr) hlabels

end Progress

/-- The admissible runs that a survey comes to: all of them, or those up to its first overflow. -/
def placesEntered (settings : Settings) (trees : Forest) : List Place :=
  ((entered settings trees).flatMap (findsAt settings)).map Find.place

/-- A survey counts every admissible run that it comes to, once and in its true neighbourhood, and
knows the labels of all children around it. -/
theorem counts_neighbourhoods (settings : Settings) (trees : Forest) (tables : Tables) {p : Place}
    (hp : p ∈ placesEntered settings trees) :
    (∃ c, (found settings trees tables).get? (p.rendered trees) = some c ∧
      ∀ n, c.multiplicity n = (placesEntered settings trees).countP fun q =>
        q.rendered trees = p.rendered trees ∧
          q.neighbourhood (ofForest settings trees tables).2.symbols trees = n) ∧
      ∀ label ∈ Forest.labels (p.children trees),
        label ∈ (ofForest settings trees tables).2.symbols.labels := by
  have hend : (reached settings trees tables).Surrounds trees
      ((entered settings trees).flatMap (findsAt settings)) :=
    (Progress.kept_surrounds settings trees).enterAll (entered_subset settings trees)
      (Progress.surrounds_start trees tables)
  have hvisit : ∀ f ∈ (entered settings trees).flatMap (findsAt settings),
      f.visit ∈ trees.visits := by
    intro f hf
    obtain ⟨v, hv, hf⟩ := List.mem_flatMap.mp hf
    obtain ⟨r, -, rfl⟩ := List.mem_map.mp hf
    exact entered_subset settings trees hv
  rw [tables_ofForest]
  obtain ⟨f, hf, rfl⟩ := List.mem_map.mp hp
  refine ⟨?_, hend.interned f hf⟩
  rw [rendered_place (hvisit f hf)]
  have hknown : f.rendered ∈ (found settings trees tables).keys :=
    (hend.known _).mpr (List.ne_nil_of_mem (Progress.mem_findsOf.mpr ⟨hf, rfl⟩))
  obtain ⟨c, hc⟩ := (Catalogue.mem_keys_iff _).mp hknown
  refine ⟨c, hc, fun n => ?_⟩
  rw [hend.multiplicity _ c hc n, Progress.findsOf, List.countP_filter, placesEntered,
    List.countP_map]
  refine List.countP_congr fun g hg => ?_
  simp [rendered_place (hvisit g hg), and_comm]

section

variable {settings : Settings} {trees : Forest} {tables t : Tables} {s : Survey}

/-- A survey that finishes comes to each admissible run once. -/
theorem placesEntered_of_ofForest_ok (h : ofForest settings trees tables = (.ok s, t)) :
    (placesEntered settings trees).Nodup ∧
      ∀ p, p ∈ placesEntered settings trees ↔ p.Admissible settings trees := by
  obtain ⟨hs, ho⟩ := no_overflow_of_ofForest_ok h
  rw [placesEntered, entered_of_no_overflow hs ho]
  refine ⟨nodup_finds ho, fun p => ?_⟩
  rw [List.mem_map]
  constructor
  · rintro ⟨f, hf, rfl⟩
    exact admissible_place ho hf
  · exact exists_find hs ho

end

/-- A survey keeps the symbols that it is given. -/
theorem within_ofForest (settings : Settings) (trees : Forest) (tables : Tables) :
    tables.symbols.Within (ofForest settings trees tables).2.symbols := by
  have hkept : Progress.Kept settings (entered settings trees) fun p _ =>
      tables.symbols.Within p.tables.symbols :=
    { congr := fun hp _ _ _ hs => hp.trans hs
      record := fun f _ _ _ hp => by rwa [Progress.tables_record] }
  rw [tables_ofForest]
  exact @Progress.Kept.enterAll settings _ _ { tables } [] hkept _ (List.Subset.refl _) (.refl _)

end Survey
end GrammarInduction
