import Mathlib.Data.List.Nodup
import Mathlib.Data.List.TakeWhile
import GrammarInduction.Proofs.Survey.Sites
import GrammarInduction.Survey.Basic

/-!
The runs that a survey looks at. Where no sum of a start and a length leaves the words, they are
exactly the runs of admitted length that fit into the children, each one once.
-/
namespace GrammarInduction

/-- Where a test only holds before it fails, taking while it holds is filtering. -/
theorem takeWhile_eq_filter {α : Type _} {p : α → Bool} {l : List α}
    (h : l.Pairwise fun a b => p b = true → p a = true) : l.takeWhile p = l.filter p := by
  induction l with
  | nil => rfl
  | cons a l ih =>
    obtain ⟨ha, hl⟩ := List.pairwise_cons.mp h
    by_cases hp : p a = true
    · simp [hp, ih hl]
    · have hnone : l.filter p = [] := List.filter_eq_nil_iff.mpr fun b hb hpb => hp (ha b hb hpb)
      simp [hp, hnone]

namespace Run

variable {r : Run} {cs : List Node}

lemma length_elements (h : r.stop ≤ cs.length) : (r.elements cs).length = r.len := by
  rw [stop] at h
  rw [elements, List.length_take, List.length_drop]
  omega

lemma mem_of_mem_elements {n : Node} (h : n ∈ r.elements cs) : n ∈ cs :=
  List.mem_of_mem_drop (List.mem_of_mem_take h)

end Run

namespace Settings

variable {s : Settings}

def lengthAt (s : Settings) (k : Nat) : Nat := s.minLen + k * s.stride

lemma lengthAt_lt_iff {j k : Nat} : s.lengthAt j < s.lengthAt k ↔ j < k := by
  rw [lengthAt, lengthAt, Nat.add_lt_add_iff_left, Nat.mul_lt_mul_right s.stride_pos]

lemma le_lengthAt (s : Settings) (k : Nat) : k ≤ s.lengthAt k :=
  Nat.le_trans (Nat.le_mul_of_pos_right k s.stride_pos) (Nat.le_add_left _ _)

lemma admits_iff {len : Nat} : s.Admits len ↔ ∃ k, len = s.lengthAt k ∧ len ≤ s.maxLen := Iff.rfl

lemma lengths_eq_filter (s : Settings) (room : Nat) :
    s.lengths room = ((List.range (room + 1)).map s.lengthAt).filter
      fun len => len ≤ s.maxLen && len ≤ room := by
  have hmono : ((List.range (room + 1)).map s.lengthAt).Pairwise fun a b =>
      (b ≤ s.maxLen && b ≤ room) = true → (a ≤ s.maxLen && a ≤ room) = true := by
    rw [List.pairwise_map]
    refine List.pairwise_lt_range.imp fun {i j} hij => ?_
    have hlt : s.lengthAt i < s.lengthAt j := lengthAt_lt_iff.mpr hij
    simp only [Bool.and_eq_true, decide_eq_true_eq]
    exact fun ⟨hmax, hroom⟩ => ⟨by omega, by omega⟩
  exact takeWhile_eq_filter hmono

lemma mem_lengths_iff {room len : Nat} : len ∈ s.lengths room ↔ s.Admits len ∧ len ≤ room := by
  rw [lengths_eq_filter, List.mem_filter, List.mem_map, admits_iff]
  simp only [List.mem_range, Bool.and_eq_true, decide_eq_true_eq]
  constructor
  · rintro ⟨⟨k, -, rfl⟩, hmax, hroom⟩
    exact ⟨⟨k, rfl, hmax⟩, hroom⟩
  · rintro ⟨⟨k, rfl, hmax⟩, hroom⟩
    have := s.le_lengthAt k
    exact ⟨⟨k, by omega, rfl⟩, hmax, hroom⟩

lemma nodup_lengths (s : Settings) (room : Nat) : (s.lengths room).Nodup := by
  rw [lengths_eq_filter]
  refine List.Nodup.filter _ ?_
  rw [List.Nodup, List.pairwise_map]
  exact List.pairwise_lt_range.imp fun {i j} hij =>
    Nat.ne_of_lt (lengthAt_lt_iff.mpr hij)

/-- The lengths that fit are those before the next length. -/
theorem lt_nextLength_iff (room : Nat) {len : Nat} (ha : s.Admits len) :
    len < s.nextLength room ↔ len ≤ room := by
  have hget : ∀ j (hj : j < (s.lengths room).length), (s.lengths room)[j] = s.lengthAt j := by
    intro j hj
    have hpre : s.lengths room <+: (List.range (room + 1)).map s.lengthAt :=
      List.takeWhile_prefix _
    rw [hpre.getElem hj, List.getElem_map, List.getElem_range]
  constructor
  · obtain ⟨k, rfl, -⟩ := admits_iff.mp ha
    intro hlt
    have hk : k < (s.lengths room).length := lengthAt_lt_iff.mp hlt
    exact (mem_lengths_iff.mp (hget k hk ▸ List.getElem_mem hk)).2
  · intro hle
    obtain ⟨j, hj, hlen⟩ := List.getElem_of_mem (mem_lengths_iff.mpr ⟨ha, hle⟩)
    rw [← hlen, hget j hj]
    exact lengthAt_lt_iff.mpr hj

/-- The next length does not fit, if it is a length at all. -/
theorem lt_nextLength {room : Nat} (ha : s.Admits (s.nextLength room)) :
    room < s.nextLength room :=
  Nat.lt_of_not_le ((lt_nextLength_iff room ha).not.mp (Nat.lt_irrefl _))

/-- An overflow is the sum of a start and the first length that does not fit. -/
theorem overflowsAt_iff {size start : Nat} (hstart : start ≤ size) :
    s.overflowsAt size start = true ↔ ∃ len, s.Admits len ∧ size < start + len ∧
      wordMax < start + len ∧ ∀ shorter < len, s.Admits shorter → start + shorter ≤ size := by
  simp only [overflowsAt, Bool.and_eq_true, decide_eq_true_eq]
  constructor
  · rintro ⟨hmax, hword⟩
    have ha : s.Admits (s.nextLength (size - start)) := ⟨_, rfl, hmax⟩
    have hroom := lt_nextLength ha
    refine ⟨_, ha, by omega, hword, fun shorter hlt hs => ?_⟩
    have := (lt_nextLength_iff _ hs).mp hlt
    omega
  · rintro ⟨len, ha, hsize, hword, hfits⟩
    have hnext : s.nextLength (size - start) ≤ len := by
      have := (lt_nextLength_iff (size - start) ha).not.mpr (by omega)
      omega
    have hmax : s.nextLength (size - start) ≤ s.maxLen := by
      obtain ⟨k, -, hk⟩ := ha
      omega
    have ha' : s.Admits (s.nextLength (size - start)) := ⟨_, rfl, hmax⟩
    have hroom := lt_nextLength ha'
    -- All shorter lengths fit, and the next length does not.
    obtain hlt | heq := Nat.lt_or_eq_of_le hnext
    · have := hfits _ hlt ha'
      omega
    · exact ⟨hmax, heq ▸ hword⟩

lemma mem_runsFrom {size : Nat} {starts : List Nat} {r : Run}
    (h : r ∈ (s.runsFrom size starts).1) : r.start ∈ starts ∧ r.len ∈ s.lengths (size - r.start) := by
  induction starts with
  | nil => cases h
  | cons i is ih =>
    have hhere : r ∈ (s.lengths (size - i)).map (Run.mk i) →
        r.start ∈ i :: is ∧ r.len ∈ s.lengths (size - r.start) := by
      intro hr
      obtain ⟨len, hlen, rfl⟩ := List.mem_map.mp hr
      exact ⟨List.mem_cons_self, hlen⟩
    rw [runsFrom] at h
    dsimp only at h
    split at h
    · exact hhere h
    · rcases List.mem_append.mp h with h | h
      · exact hhere h
      · exact ⟨List.mem_cons_of_mem _ (ih h).1, (ih h).2⟩

/-- Every run that is looked at fits into the children, also before an overflow. -/
theorem stop_le_of_mem_runs {size : Nat} {r : Run} (h : r ∈ (s.runs size).1) : r.stop ≤ size := by
  obtain ⟨hstart, hlen⟩ := mem_runsFrom h
  have hlt := List.mem_range.mp hstart
  have hle := (mem_lengths_iff.mp hlen).2
  rw [Run.stop]
  omega

/-- Without an overflow every start is reached. -/
theorem runsFrom_of_no_overflow {size : Nat} {starts : List Nat}
    (h : ∀ i ∈ starts, s.overflowsAt size i = false) :
    s.runsFrom size starts =
      (starts.flatMap fun i => (s.lengths (size - i)).map (Run.mk i), false) := by
  induction starts with
  | nil => rfl
  | cons i is ih =>
    rw [runsFrom, h i (by simp), ih fun j hj => h j (by simp [hj])]
    rfl

lemma runsFrom_overflow_iff {size : Nat} {starts : List Nat} :
    (s.runsFrom size starts).2 = true ↔ ∃ i ∈ starts, s.overflowsAt size i = true := by
  induction starts with
  | nil => simp [runsFrom]
  | cons i is ih =>
    by_cases hi : s.overflowsAt size i = true
    · simp [runsFrom, hi]
    · simp [runsFrom, hi, ih]

lemma runs_of_no_overflow {size : Nat} (h : (s.runs size).2 = false) :
    (s.runs size).1 =
      (List.range size).flatMap fun i => (s.lengths (size - i)).map (Run.mk i) := by
  have hno : ∀ i ∈ List.range size, s.overflowsAt size i = false := by
    intro i hi
    rw [← Bool.not_eq_true]
    intro ho
    simp [runs, runsFrom_overflow_iff.mpr ⟨i, hi, ho⟩] at h
  rw [runs, runsFrom_of_no_overflow hno]

lemma mem_runs_iff {size : Nat} (h : (s.runs size).2 = false) {r : Run} :
    r ∈ (s.runs size).1 ↔ r.start < size ∧ s.Admits r.len ∧ r.stop ≤ size := by
  obtain ⟨start, len⟩ := r
  simp only [runs_of_no_overflow h, List.mem_flatMap, List.mem_range, List.mem_map, mem_lengths_iff,
    Run.stop, Run.mk.injEq]
  constructor
  · rintro ⟨i, hi, l, ⟨ha, hl⟩, rfl, rfl⟩
    exact ⟨hi, ha, by omega⟩
  · rintro ⟨hi, ha, hl⟩
    exact ⟨start, hi, len, ⟨ha, by omega⟩, rfl, rfl⟩

lemma nodup_runs {size : Nat} (h : (s.runs size).2 = false) : (s.runs size).1.Nodup := by
  rw [runs_of_no_overflow h, List.nodup_flatMap]
  constructor
  · intro i _
    exact (s.nodup_lengths (size - i)).map fun a b hab => (Run.mk.inj hab).2
  · refine List.nodup_range.imp fun {i j} hne r hi hj => ?_
    obtain ⟨a, -, rfl⟩ := List.mem_map.mp hi
    obtain ⟨b, -, hb⟩ := List.mem_map.mp hj
    exact hne (Run.mk.inj hb).1.symm

lemma Valid.pos_of_admits (hs : s.Valid) {len : Nat} (h : s.Admits len) : 0 < len := by
  obtain ⟨k, rfl, -⟩ := h
  have := hs.1
  omega

end Settings

namespace Survey

/-- No sum of a start and a length that a survey forms leaves the words. At a start, lengths are
tried as long as the shorter ones fit into the children. -/
def WithinWords (settings : Settings) (trees : Forest) : Prop :=
  ∀ site n, trees.descend? site = some n → ∀ i < n.children.length, ∀ len, settings.Admits len →
    (∀ shorter < len, settings.Admits shorter → i + shorter ≤ n.children.length) →
    i + len ≤ wordMax

/-- Somewhere the first length that does not fit into the children leads beyond the words. -/
def Overreaches (settings : Settings) (trees : Forest) : Prop :=
  ∃ site n, trees.descend? site = some n ∧ ∃ i < n.children.length, ∃ len, settings.Admits len ∧
    n.children.length < i + len ∧ wordMax < i + len ∧
    ∀ shorter < len, settings.Admits shorter → i + shorter ≤ n.children.length

lemma overflows_iff {settings : Settings} {v : Visit} :
    overflows settings v = true ↔ ∃ i < v.size, settings.overflowsAt v.size i = true := by
  simp only [overflows, Settings.runs, Settings.runsFrom_overflow_iff, List.mem_range]

/-- Some visit of a survey overflows exactly if the settings overreach. -/
theorem exists_overflows_iff {settings : Settings} {trees : Forest} :
    (∃ v ∈ trees.visits, overflows settings v = true) ↔ Overreaches settings trees := by
  constructor
  · rintro ⟨v, hv, ho⟩
    obtain ⟨i, hi, ho⟩ := overflows_iff.mp ho
    exact ⟨v.site, v.node, Forest.descend?_of_mem_visits hv, i, hi,
      (Settings.overflowsAt_iff hi.le).mp ho⟩
  · rintro ⟨site, n, hn, i, hi, ho⟩
    obtain ⟨v, hv, -, rfl⟩ := Forest.exists_visit hn
    exact ⟨v, hv, overflows_iff.mpr ⟨i, hi, (Settings.overflowsAt_iff hi.le).mpr ho⟩⟩

lemma WithinWords.not_overreaches {settings : Settings} {trees : Forest}
    (h : WithinWords settings trees) : ¬Overreaches settings trees := by
  rintro ⟨site, n, hn, i, hi, len, ha, -, hword, hfits⟩
  have := h site n hn i hi len ha hfits
  omega

lemma WithinWords.overflows_eq_false {settings : Settings} {trees : Forest}
    (h : WithinWords settings trees) {v : Visit} (hv : v ∈ trees.visits) :
    overflows settings v = false :=
  Bool.eq_false_iff.mpr fun ho => h.not_overreaches (exists_overflows_iff.mp ⟨v, hv, ho⟩)

/-- Settings whose longest length and the children of a node make up a word stay within the
words. -/
theorem withinWords_of_le {settings : Settings} {trees : Forest}
    (h : ∀ v ∈ trees.visits, v.size + settings.maxLen ≤ wordMax) : WithinWords settings trees := by
  intro site n hn i hi len ha _
  obtain ⟨v, hv, -, rfl⟩ := Forest.exists_visit hn
  obtain ⟨k, -, hmax⟩ := ha
  have := h v hv
  rw [Visit.size] at this
  omega

/-- The visits that a survey enters: all of them, or those up to the first overflow. -/
def entered (settings : Settings) (trees : Forest) : List Visit :=
  match settings.check with
  | .error _ => []
  | .ok settings =>
    let before := trees.visits.takeWhile fun v => !overflows settings v
    before ++ (trees.visits.drop before.length).take 1

lemma entered_subset (settings : Settings) (trees : Forest) :
    entered settings trees ⊆ trees.visits := by
  rw [entered]
  split
  · exact List.nil_subset _
  · refine List.append_subset.mpr ⟨(List.takeWhile_sublist _).subset, ?_⟩
    exact ((List.take_sublist _ _).trans (List.drop_sublist _ _)).subset

def reached (settings : Settings) (trees : Forest) (tables : Tables) : Progress :=
  (entered settings trees).foldl (Progress.enter settings) { tables }

/-- Whatever becomes of a survey, it leaves what it had when it ended. -/
theorem tables_ofForest (settings : Settings) (trees : Forest) (tables : Tables) :
    (ofForest settings trees tables).2 = (reached settings trees tables).tables := by
  rw [ofForest, reached, entered]
  cases hc : settings.check with
  | error refusal => rfl
  | ok settings' =>
    obtain ⟨rfl, -⟩ := Settings.check_eq_ok_iff.mp hc
    dsimp only
    split <;> rfl

lemma takeWhile_of_no_overflow {settings : Settings} {trees : Forest}
    (h : ∀ v ∈ trees.visits, overflows settings v = false) :
    trees.visits.takeWhile (fun v => !overflows settings v) = trees.visits := by
  rw [List.takeWhile_eq_self_iff]
  exact fun v hv => by rw [h v hv]; rfl

lemma entered_of_no_overflow {settings : Settings} {trees : Forest} (hs : settings.Valid)
    (h : ∀ v ∈ trees.visits, overflows settings v = false) :
    entered settings trees = trees.visits := by
  simp [entered, Settings.check_eq_ok_iff.mpr ⟨rfl, hs⟩, takeWhile_of_no_overflow h]

/-- Without an overflow a survey goes through all visits. -/
theorem ofForest_of_no_overflow {settings : Settings} {trees : Forest} (tables : Tables)
    (hs : settings.Valid) (h : ∀ v ∈ trees.visits, overflows settings v = false) :
    ofForest settings trees tables =
      (.ok (trees.visits.foldl (Progress.enter settings) { tables }).finish,
        (trees.visits.foldl (Progress.enter settings) { tables }).tables) := by
  simp [ofForest, Settings.check_eq_ok_iff.mpr ⟨rfl, hs⟩, takeWhile_of_no_overflow h]

/-- Valid settings survey every forest within the words. -/
theorem ofForest_of_withinWords {settings : Settings} {trees : Forest} (tables : Tables)
    (hs : settings.Valid) (h : WithinWords settings trees) :
    ofForest settings trees tables =
      (.ok (trees.visits.foldl (Progress.enter settings) { tables }).finish,
        (trees.visits.foldl (Progress.enter settings) { tables }).tables) :=
  ofForest_of_no_overflow tables hs fun _ hv => h.overflows_eq_false hv

/-- A survey that finishes had valid settings and met no overflow. -/
theorem no_overflow_of_ofForest_ok {settings : Settings} {trees : Forest} {tables t : Tables}
    {s : Survey} (h : ofForest settings trees tables = (.ok s, t)) :
    settings.Valid ∧ ∀ v ∈ trees.visits, overflows settings v = false := by
  cases hc : settings.check with
  | error refusal => simp [ofForest, hc] at h
  | ok settings' =>
    obtain ⟨rfl, hs⟩ := Settings.check_eq_ok_iff.mp hc
    refine ⟨hs, ?_⟩
    have hrest : trees.visits.drop
        (trees.visits.takeWhile fun v => !overflows settings' v).length = [] := by
      cases hr : trees.visits.drop
          (trees.visits.takeWhile fun v => !overflows settings' v).length with
      | nil => rfl
      | cons v vs => simp [ofForest, hc, hr] at h
    have hlen := List.drop_eq_nil_iff.mp hrest
    have hall := (List.takeWhile_prefix fun v => !overflows settings' v).eq_of_length_le hlen
    intro v hv
    simpa using List.takeWhile_eq_self_iff.mp hall v hv

/-- A survey that meets an overflow fails there. -/
theorem ofForest_of_overflow {settings : Settings} {trees : Forest} (tables : Tables)
    (hs : settings.Valid) {v : Visit} (hv : v ∈ trees.visits) (ho : overflows settings v = true) :
    (ofForest settings trees tables).1 = .error (.faulted .lengthOverflow) := by
  cases hr : ofForest settings trees tables with
  | mk result t =>
    cases result with
    | ok s =>
      have hno := (no_overflow_of_ofForest_ok hr).2 v hv
      rw [ho] at hno
      cases hno
    | error failure =>
      rw [ofForest, Settings.check_eq_ok_iff.mpr ⟨rfl, hs⟩] at hr
      dsimp only at hr
      split at hr
      · cases (Prod.mk.inj hr).1
      · exact (congrArg Prod.fst hr).symm

/-- Invalid settings are refused for what they miss, before a symbol or a name is taken. -/
theorem ofForest_of_not_valid {settings : Settings} (h : ¬settings.Valid) :
    ∃ violation, settings.violation? = some violation ∧ ∀ trees tables,
      ofForest settings trees tables =
        (.error (.refused (.invalidSettings violation)), tables) := by
  obtain ⟨violation, hviolation⟩ := Option.ne_none_iff_exists'.mp
    (mt settings.violation?_eq_none_iff.mp h)
  refine ⟨violation, hviolation, fun trees tables => ?_⟩
  rw [ofForest, Settings.check_eq_error_iff.mpr ⟨violation, hviolation, rfl⟩]

/-- The three ways a survey can end: invalid settings are refused, settings that overreach fail, and
all others finish. -/
theorem ofForest_cases (settings : Settings) (trees : Forest) (tables : Tables) :
    (¬settings.Valid ∧ ∃ refusal, (ofForest settings trees tables).1 = .error (.refused refusal)) ∨
    (settings.Valid ∧ Overreaches settings trees ∧
      (ofForest settings trees tables).1 = .error (.faulted .lengthOverflow)) ∨
    (settings.Valid ∧ ¬Overreaches settings trees ∧
      ∃ s, (ofForest settings trees tables).1 = .ok s) := by
  by_cases hs : settings.Valid
  · by_cases ho : Overreaches settings trees
    · obtain ⟨v, hv, hover⟩ := exists_overflows_iff.mpr ho
      exact .inr (.inl ⟨hs, ho, ofForest_of_overflow tables hs hv hover⟩)
    · have hno : ∀ v ∈ trees.visits, overflows settings v = false := fun v hv =>
        Bool.eq_false_iff.mpr fun hover => ho (exists_overflows_iff.mp ⟨v, hv, hover⟩)
      exact .inr (.inr ⟨hs, ho, _, congrArg Prod.fst (ofForest_of_no_overflow tables hs hno)⟩)
  · obtain ⟨violation, -, hrefused⟩ := ofForest_of_not_valid hs
    exact .inl ⟨hs, _, congrArg Prod.fst (hrefused trees tables)⟩

/-- Only an overflow stops a survey with valid settings. -/
theorem ofForest_of_valid {settings : Settings} (h : settings.Valid) (trees : Forest)
    (tables : Tables) :
    (∃ survey, (ofForest settings trees tables).1 = .ok survey) ∨
      (ofForest settings trees tables).1 = .error (.faulted .lengthOverflow) := by
  rcases ofForest_cases settings trees tables with ⟨hs, -⟩ | ⟨-, -, hr⟩ | ⟨-, -, hr⟩
  · exact absurd h hs
  · exact .inr hr
  · exact .inl hr

end Survey
end GrammarInduction
