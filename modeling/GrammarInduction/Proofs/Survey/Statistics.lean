import GrammarInduction.Proofs.Forest.Nodes
import GrammarInduction.Proofs.Survey.Completeness
import GrammarInduction.Proofs.Survey.Found
import GrammarInduction.Proofs.Survey.Numbering

/-!
The counts of a survey. It visits the roots and the nonterminals that are reached below them, and
looks once at each run of admitted length there. Such a run is a lone terminal, or unbalanced, or an
occurrence of a candidate; and each candidate, kept or dropped, has one of the names that were taken,
in the order of their finding.
-/
namespace GrammarInduction

namespace Node

/-- The visits of a node are its own and those of the nonterminals that are reached below it. -/
theorem map_node_visits (n : Node) (tree : Nat) (path : List Nat) (left right : Neighbour)
    (depth : Nat) : (n.visits tree path left right depth).map Visit.node =
      n :: (reachedOf n.children).filter fun m => !m.isTerminal := by
  induction n using induct generalizing path left right depth with
  | step l t cs ih =>
    have hchildren : ∀ ix, (childVisits tree path left right depth ix cs).map Visit.node =
        (reachedOf cs).filter fun m => !m.isTerminal := by
      induction cs with
      | nil => intro ix; simp [childVisits]
      | cons c cs ihs =>
        intro ix
        rw [childVisits, List.map_append, ihs fun d hd => ih d (List.mem_cons_of_mem _ hd),
          reachedOf_cons, List.filter_append]
        congr 1
        obtain ⟨l', t', cs'⟩ := c
        cases t' with
        | true => simp [reached]
        | false => simpa [reached] using ih ⟨l', false, cs'⟩ List.mem_cons_self _ _ _ _
    rw [visits, List.map_cons, hchildren]

end Node

/-- A survey visits each root and after it the nonterminals that are reached below it. -/
theorem Forest.map_node_visits (trees : Forest) : trees.visits.map Visit.node =
    trees.flatMap fun root => root :: (Node.reachedOf root.children).filter fun n => !n.isTerminal := by
  have h : ∀ k, (visitsFrom k trees).map Visit.node = trees.flatMap fun root =>
      root :: (Node.reachedOf root.children).filter fun n => !n.isTerminal := by
    induction trees with
    | nil => intro k; rfl
    | cons t ts ih =>
      intro k
      rw [visitsFrom, List.map_append, ih, t.map_node_visits, List.flatMap_cons]
  exact h 0

lemma Forest.length_visits (trees : Forest) : trees.visits.length = trees.length +
    (trees.flatMap fun root => Node.reachedOf root.children).countP fun n => !n.isTerminal := by
  rw [← List.length_map Visit.node, map_node_visits]
  induction trees with
  | nil => rfl
  | cons t ts ih =>
    rw [List.flatMap_cons, List.length_append, ih, List.flatMap_cons, List.countP_append,
      List.length_cons, List.length_cons, ← List.countP_eq_length_filter]
    omega

def Verdict.isUnbalanced : Verdict → Bool
  | .unbalanced _ => true
  | _ => false

/-- The tally after a survey looked at some more runs. -/
def Tally.lookAt (t : Tally) (fs : List (Visit × Run)) : Tally :=
  { t with
    spansConsidered := t.spansConsidered + fs.length
    singleTerminals := t.singleTerminals + fs.countP fun f => f.1.verdict f.2 = .loneTerminal
    unbalanced := t.unbalanced + fs.countP fun f => (f.1.verdict f.2).isUnbalanced }

lemma Tally.lookAt_lookAt (t : Tally) (fs gs : List (Visit × Run)) :
    (t.lookAt fs).lookAt gs = t.lookAt (fs ++ gs) := by
  simp only [lookAt, List.length_append, List.countP_append, Nat.add_assoc]

namespace Survey

variable {settings : Settings} {trees : Forest} {tables t : Tables} {s : Survey}

/-- The runs that a survey looks at, each with its visit. -/
def considered (settings : Settings) (visits : List Visit) : List (Visit × Run) :=
  visits.flatMap fun v => (settings.runs v.size).1.map (Prod.mk v)

/-- Within the words these are the runs of admitted length that fit into the children. -/
theorem mem_considered_iff (hs : settings.Valid) (h : WithinWords settings trees) {v : Visit}
    {r : Run} : (v, r) ∈ considered settings trees.visits ↔
      v ∈ trees.visits ∧ settings.Admits r.len ∧ r.stop ≤ v.size := by
  simp only [considered, List.mem_flatMap, List.mem_map, Prod.mk.injEq]
  constructor
  · rintro ⟨u, hu, r, hr, rfl, rfl⟩
    exact ⟨hu, ((Settings.mem_runs_iff (h.overflows_eq_false hu)).mp hr).2⟩
  · rintro ⟨hv, ha, hfits⟩
    have hpos := hs.pos_of_admits ha
    have hstart : r.start < v.size := by
      rw [Run.stop] at hfits
      omega
    exact ⟨v, hv, r, (Settings.mem_runs_iff (h.overflows_eq_false hv)).mpr ⟨hstart, ha, hfits⟩, rfl,
      rfl⟩

lemma nodup_considered (h : WithinWords settings trees) :
    (considered settings trees.visits).Nodup := by
  rw [considered, List.nodup_flatMap]
  constructor
  · intro v hv
    exact (Settings.nodup_runs (h.overflows_eq_false hv)).map fun _ _ heq => (Prod.mk.inj heq).2
  · refine (List.Nodup.of_map _ (Forest.nodup_visits trees)).imp fun {v u} hne f hv hu => ?_
    obtain ⟨r, -, rfl⟩ := List.mem_map.mp hv
    obtain ⟨r', -, heq⟩ := List.mem_map.mp hu
    exact hne (Prod.mk.inj heq).1.symm

/-- The run has an admitted length and lies among the children of a site. -/
structure Place.Lies (settings : Settings) (trees : Forest) (p : Place) : Prop where
  atSite : ∃ n, trees.descend? p.site = some n
  length : settings.Admits p.run.len
  fits : p.run.stop ≤ (p.children trees).length

/-- The places at which a survey looks. -/
theorem mem_places_iff (hs : settings.Valid) (h : WithinWords settings trees) {p : Place} :
    p ∈ (considered settings trees.visits).map (fun f => Place.mk f.1.site f.2) ↔
      p.Lies settings trees := by
  rw [List.mem_map]
  constructor
  · rintro ⟨⟨v, r⟩, hf, rfl⟩
    obtain ⟨hv, ha, hfits⟩ := (mem_considered_iff hs h).mp hf
    have hsite := Forest.descend?_of_mem_visits hv
    refine ⟨⟨_, hsite⟩, ha, ?_⟩
    rw [Place.children_of_descend? (p := ⟨v.site, r⟩) hsite]
    exact hfits
  · rintro ⟨⟨n, hn⟩, ha, hfits⟩
    rw [Place.children_of_descend? hn] at hfits
    obtain ⟨v, hv, hsite, rfl⟩ := Forest.exists_visit hn
    refine ⟨(v, p.run), (mem_considered_iff hs h).mpr ⟨hv, ha, hfits⟩, ?_⟩
    rw [hsite]

/-- It looks at each place once. -/
theorem nodup_places (h : WithinWords settings trees) :
    ((considered settings trees.visits).map fun f => Place.mk f.1.site f.2).Nodup := by
  refine (nodup_considered h).map_on fun f hf g hg heq => ?_
  have hvisit : ∀ {f : Visit × Run}, f ∈ considered settings trees.visits → f.1 ∈ trees.visits := by
    intro f hf
    obtain ⟨v, hv, hf⟩ := List.mem_flatMap.mp hf
    obtain ⟨r, -, rfl⟩ := List.mem_map.mp hf
    exact hv
  obtain ⟨hsite, hrun⟩ := Place.mk.inj heq
  exact Prod.ext (List.inj_on_of_nodup_map (Forest.nodup_visits trees) (hvisit hf) (hvisit hg) hsite)
    hrun

lemma encard_lies (hs : settings.Valid) (h : WithinWords settings trees) :
    {p : Place | p.Lies settings trees}.encard = (considered settings trees.visits).length := by
  refine (encard_eq_length (nodup_places h) fun p => (mem_places_iff hs h).symm).trans ?_
  rw [List.length_map]

/-- Each run gets one of the three verdicts. -/
theorem length_eq_countP_verdict (fs : List (Visit × Run)) :
    fs.length = fs.countP (fun f => f.1.verdict f.2 = .loneTerminal) +
      fs.countP (fun f => (f.1.verdict f.2).isUnbalanced) +
      fs.countP fun f => f.1.verdict f.2 = .admissible := by
  induction fs with
  | nil => rfl
  | cons f fs ih =>
    have hone : (if decide (f.1.verdict f.2 = .loneTerminal) then 1 else 0) +
        (if (f.1.verdict f.2).isUnbalanced then 1 else 0) +
        (if decide (f.1.verdict f.2 = .admissible) then 1 else 0) = 1 := by
      cases f.1.verdict f.2 <;> rfl
    rw [List.length_cons, List.countP_cons, List.countP_cons, List.countP_cons]
    omega

lemma length_finds (settings : Settings) (trees : Forest) : (finds settings trees).length =
    (considered settings trees.visits).countP fun f => f.1.verdict f.2 = .admissible := by
  rw [finds, considered, List.length_flatMap, List.countP_flatMap]
  congr 1
  refine List.map_congr_left fun v _ => ?_
  rw [findsAt, List.length_map, ← List.countP_eq_length_filter, Function.comp_apply, List.countP_map]
  rfl

namespace Progress

lemma tally_consider (v : Visit) (symbols : List Neighbour) (p : Progress) (r : Run) :
    (p.consider v symbols r).tally = p.tally.lookAt [(v, r)] := by
  cases hverdict : v.verdict r with
  | loneTerminal | unbalanced =>
    simp [Progress.consider, hverdict, Tally.lookAt, Verdict.isUnbalanced]
  | admissible =>
    simp only [Progress.consider, hverdict]
    rw [tally_record _ ⟨v, r⟩]
    simp [hverdict, Tally.lookAt, Verdict.isUnbalanced]

lemma tally_considerAll (v : Visit) (symbols : List Neighbour) (p : Progress) (rs : List Run) :
    (rs.foldl (Progress.consider v symbols) p).tally = p.tally.lookAt (rs.map (Prod.mk v)) := by
  induction rs generalizing p with
  | nil => rfl
  | cons r rs ih =>
    rw [List.foldl_cons, ih, tally_consider, Tally.lookAt_lookAt]
    rfl

lemma tally_enter (settings : Settings) (p : Progress) (v : Visit) :
    (p.enter settings v).tally =
      Tally.lookAt { p.tally with nodesVisited := p.tally.nodesVisited + 1 }
        (considered settings [v]) := by
  rw [Progress.enter, considered, List.flatMap_singleton]
  exact tally_considerAll v _ _ _

/-- Every visit and every run that was looked at is counted once. -/
theorem tally_enterAll (settings : Settings) (p : Progress) (visits : List Visit) :
    (visits.foldl (Progress.enter settings) p).tally =
      Tally.lookAt { p.tally with nodesVisited := p.tally.nodesVisited + visits.length }
        (considered settings visits) := by
  induction visits generalizing p with
  | nil => rfl
  | cons v vs ih =>
    have happend : considered settings (v :: vs) =
        considered settings [v] ++ considered settings vs := by simp [considered]
    rw [List.foldl_cons, ih, tally_enter, happend, ← Tally.lookAt_lookAt, List.length_cons,
      Nat.add_comm vs.length, ← Nat.add_assoc]
    rfl

/-- The candidates occur as often as there were finds. -/
def Occurs (p : Progress) (done : List Find) : Prop :=
  (p.candidates.values.map Candidate.occurrences).sum = done.length

lemma Occurs.record {p : Progress} {done : List Find} (h : p.Occurs done) (f : Find)
    (symbols : List Neighbour) : (p.record f.visit symbols f.run).Occurs (done ++ [f]) := by
  have hsum := p.candidates.sum_values_upsert Candidate.occurrences f.rendered
    fun _ => p.recorded f symbols
  rw [Occurs] at h
  rw [Occurs, candidates_record, Catalogue.insert, List.length_append, List.length_singleton]
  cases hc : p.candidates.get? f.rendered with
  | some c =>
    have hmore : (p.recorded f symbols).occurrences = c.occurrences + 1 := by
      simp [recorded, candidateFor_known hc]
    rw [hc, Option.elim_some] at hsum
    omega
  | none =>
    have hfirst : (p.recorded f symbols).occurrences = 1 := by
      simp [recorded, candidateFor_new hc]
    rw [hc, Option.elim_none] at hsum
    omega

/-- The candidates stand in the order of their finding. -/
def InOrder (p : Progress) : Prop :=
  p.candidates.values.map Candidate.seq = List.range p.candidates.size

lemma InOrder.record {p : Progress} (h : p.InOrder) (f : Find) (symbols : List Neighbour) :
    (p.record f.visit symbols f.run).InOrder := by
  rw [InOrder] at h
  rw [InOrder, candidates_record, Catalogue.size_insert]
  cases hc : p.candidates.get? f.rendered with
  | some c =>
    have hseq : (p.recorded f symbols).seq = c.seq := by simp [recorded, candidateFor_known hc]
    rw [Catalogue.map_values_insert_known Candidate.seq hc hseq, h]
    rfl
  | none =>
    have hseq : (p.recorded f symbols).seq = p.candidates.size := by
      simp [recorded, candidateFor_new hc]
    rw [Catalogue.values_insert_new hc, List.map_append, h, List.map_singleton, hseq]
    exact List.range_succ.symm

end Progress

lemma sum_occurrences_found (ho : ∀ v ∈ trees.visits, overflows settings v = false)
    (hs : settings.Valid) (tables : Tables) :
    ((found settings trees tables).values.map Candidate.occurrences).sum =
      (finds settings trees).length := by
  have hkept : Progress.Kept settings trees.visits Progress.Occurs :=
    { congr := fun hp hc _ _ _ => by rw [Progress.Occurs, hc]; exact hp
      record := fun f _ _ _ hp => hp.record f _ }
  have hstart : ({ tables } : Progress).Occurs [] := rfl
  rw [found, reached, entered_of_no_overflow hs ho]
  exact hkept.enterAll (List.Subset.refl _) hstart

/-- The number of a candidate is its position among all that were found. -/
theorem getElem?_found {c : Candidate} (hc : c ∈ (found settings trees tables).values) :
    (found settings trees tables).values[c.seq]? = some c := by
  have horder : (reached settings trees tables).InOrder :=
    Progress.enterAll_induct (fun hp hc _ => by rw [Progress.InOrder, hc]; exact hp)
      (fun f symbols hp => hp.record f symbols) settings _ rfl
  obtain ⟨i, hi, rfl⟩ := List.getElem_of_mem hc
  have hseq := congrArg (fun l => l[i]?) horder
  have hsize : i < (reached settings trees tables).candidates.size := by
    simpa [found, Catalogue.values, Catalogue.size] using hi
  simp only [List.getElem?_map, List.getElem?_range hsize] at hseq
  rw [← found, List.getElem?_eq_getElem hi, Option.map_some, Option.some.injEq] at hseq
  rw [hseq, List.getElem?_eq_getElem hi]

def dropped (settings : Settings) (trees : Forest) (tables : Tables) :
    Catalogue String Candidate :=
  (found settings trees tables).filter (reached settings trees tables).isWrapper

lemma keys_dropped (h : ofForest settings trees tables = (.ok s, t)) :
    (dropped settings trees tables).keys = s.suppressed := by
  rw [eq_finish_reached h]
  rfl

/-- The tally of a finished survey. -/
theorem tally_of_ofForest_ok (h : ofForest settings trees tables = (.ok s, t)) :
    s.tally = { Tally.lookAt { nodesVisited := trees.visits.length }
      (considered settings trees.visits) with wrappersSuppressed := s.suppressed.length } := by
  obtain ⟨rfl, -⟩ := eq_finish_of_ofForest_ok h
  rw [Progress.finish, Progress.tally_enterAll, Nat.zero_add]

/-- What is dropped was found in its places as well, all of which are whole child lists. -/
theorem holdsPlaces_of_dropped (h : ofForest settings trees tables = (.ok s, t)) {r : String}
    {c : Candidate} (hc : (dropped settings trees tables).get? r = some c) :
    HoldsPlaces settings trees r c ∧
      ∀ p : Place, p.Admissible settings trees → p.rendered trees = r → p.IsWhole trees := by
  obtain ⟨hs, ho⟩ := no_overflow_of_ofForest_ok h
  have hreached : reached settings trees tables =
      trees.visits.foldl (Progress.enter settings) { tables } := by
    rw [reached, entered_of_no_overflow hs ho]
  have href := reflects_finds settings trees tables
  rw [dropped, found, hreached, Catalogue.get?_filter_eq_some_iff] at hc
  refine ⟨holdsPlaces_of_tells hs ho (href.tells r c hc.1), fun p hp hr => ?_⟩
  obtain ⟨f, hf, rfl⟩ := exists_find hs ho hp
  have hv := ((mem_finds_iff ho).mp hf).1
  exact (isWhole_place_iff hv).mpr ((href.isWrapper_iff hc.1).mp hc.2 f
    (Progress.mem_findsOf.mpr ⟨hf, (rendered_place hv).symm.trans hr⟩))

lemma sum_kept_add_dropped (h : ofForest settings trees tables = (.ok s, t)) (f : Candidate → Nat) :
    (s.candidates.values.map f).sum + ((dropped settings trees tables).values.map f).sum =
      ((found settings trees tables).values.map f).sum := by
  rw [eq_finish_reached h]
  exact Catalogue.sum_values_filter f _ _

/-- Below the greatest word the counter of the names advances by one for each candidate. -/
theorem next_ofForest (settings : Settings) (trees : Forest) (tables : Tables)
    (hlt : (ofForest settings trees tables).2.names.next < wordMax) :
    (ofForest settings trees tables).2.names.next =
      tables.names.next + (found settings trees tables).values.length := by
  have hstart := (leadsTo_ofForest settings trees tables).lt_of_lt hlt
  have hnext := (handsOut_ofForest settings trees tables).next_eq hstart.le
  rw [List.length_map] at hnext
  omega

/-- The counts of a survey balance. It visits the roots and the nonterminals that are reached below
them, and looks once at each run of admitted length among the children of these. Each of the runs is
a lone terminal, or unbalanced, or one of the occurrences of the candidates that it keeps and of
those that it drops, which are only whole child lists. For each candidate, kept or dropped, and for
nothing else it takes a name, and the number of a candidate is that of its name among them. -/
theorem counts_balance {settings : Settings} {trees : Forest} {tables : Tables}
    (hs : settings.check = .ok settings) (hw : WithinWords settings trees)
    (hlt : (ofForest settings trees tables).2.names.next < wordMax) :
    ∃ s t, ofForest settings trees tables = (.ok s, t) ∧
      s.tally.nodesVisited = trees.length +
        (trees.flatMap fun root => Node.reachedOf root.children).countP (fun n => !n.isTerminal) ∧
      {p : Place | p.Lies settings trees}.encard = s.tally.spansConsidered ∧
      s.tally.spansConsidered = s.tally.singleTerminals + s.tally.unbalanced +
        (s.candidates.values.map Candidate.occurrences).sum +
        ((dropped settings trees tables).values.map Candidate.occurrences).sum ∧
      (dropped settings trees tables).keys = s.suppressed ∧
      (∀ r c, (dropped settings trees tables).get? r = some c → HoldsPlaces settings trees r c ∧
        ∀ p : Place, p.Admissible settings trees → p.rendered trees = r → p.IsWhole trees) ∧
      s.tally.wrappersSuppressed = s.suppressed.length ∧
      t.names.next = tables.names.next + s.candidates.size + s.tally.wrappersSuppressed ∧
      ∃ names, tables.names.HandsOut names t.names ∧
        names.length = s.candidates.size + s.tally.wrappersSuppressed ∧
        ∀ c ∈ s.candidates.values, names[c.seq]? = some c.id := by
  have hvalid := (Settings.check_eq_ok_iff.mp hs).2
  obtain ⟨s, t, hok⟩ : ∃ s t, ofForest settings trees tables = (.ok s, t) :=
    ⟨_, _, ofForest_of_withinWords tables hvalid hw⟩
  have hnext := next_ofForest settings trees tables hlt
  have hnames := handsOut_ofForest settings trees tables
  rw [hok] at hnext hnames
  have htally := tally_of_ofForest_ok hok
  have hspans : s.tally.spansConsidered = (considered settings trees.visits).length := by
    simp [htally, Tally.lookAt]
  have hsum := sum_kept_add_dropped hok Candidate.occurrences
  rw [sum_occurrences_found (fun v hv => hw.overflows_eq_false hv) hvalid, length_finds] at hsum
  have hfound := length_found hok
  refine ⟨s, t, hok, ?_, ?_, ?_, keys_dropped hok, fun r c => holdsPlaces_of_dropped hok, ?_, ?_, _,
    hnames, ?_, ?_⟩
  · rw [htally]
    exact trees.length_visits
  · rw [hspans, encard_lies hvalid hw]
  · rw [hspans, length_eq_countP_verdict, ← hsum, htally, Nat.add_assoc _ (List.sum _)]
    simp [Tally.lookAt]
  · rw [htally]
  · rw [hnext, hfound, Nat.add_assoc]
  · rw [List.length_map, hfound]
  · intro c hc
    rw [List.getElem?_map, getElem?_found ((values_sublist_found hok).subset hc), Option.map_some]

/-- A tree with a pair of brackets, and a terminal root that holds children. -/
def mixedTrees : Forest :=
  [.branch "START" [.terminal "(", .branch "t1" [.terminal "a", .terminal "b"], .terminal ")"],
    ⟨"c", true, [.terminal "c", .branch "t2" [.terminal "d"]]⟩]

/-- Both roots and the two nonterminals below them are visited. Of the thirteen runs six are lone
terminals and two have one bracket only; the other five occurrences are those of the two candidates
that are kept and of the three whole child lists that are dropped, which took the names up to `t4`. -/
theorem counts_balance_mixedTrees :
    ({} : Settings).check = .ok {} ∧ WithinWords {} mixedTrees ∧
      (ofForest {} mixedTrees {}).2.names.next < wordMax ∧
      ∃ s t, ofForest {} mixedTrees {} = (.ok s, t) ∧ s.tally.nodesVisited = 4 ∧
        {p : Place | p.Lies {} mixedTrees}.encard = s.tally.spansConsidered ∧
        s.tally = ⟨4, 13, 6, 2, 3⟩ ∧ t.names.next = 5 ∧ s.candidates.size = 2 ∧
        (s.candidates.values.map Candidate.occurrences).sum +
          ((dropped {} mixedTrees {}).values.map Candidate.occurrences).sum = 5 := by
  have hcheck : ({} : Settings).check = .ok {} := rfl
  have hwords : WithinWords {} mixedTrees := withinWords_of_le (by decide +kernel)
  have hlt : (ofForest {} mixedTrees {}).2.names.next < wordMax := by decide +kernel
  obtain ⟨s, t, hok, hvisited, hspans, hbalance, -, -, -, hnext, -⟩ :=
    counts_balance hcheck hwords hlt
  have htally : s.tally = ⟨4, 13, 6, 2, 3⟩ := by
    have hrun : (ofForest {} mixedTrees {}).1.toOption.map Survey.tally =
        some ⟨4, 13, 6, 2, 3⟩ := by decide +kernel
    rw [hok] at hrun
    exact Option.some.inj hrun
  have hnames : t.names.next = 5 := by
    have hrun : (ofForest {} mixedTrees {}).2.names.next = 5 := by decide +kernel
    rwa [hok] at hrun
  rw [htally] at hbalance
  rw [hnames, htally] at hnext
  dsimp only at hbalance hnext
  refine ⟨hcheck, hwords, hlt, s, t, hok, hvisited.trans (by decide), hspans, htally, hnames, ?_, ?_⟩
  · omega
  · omega

end Survey
end GrammarInduction
