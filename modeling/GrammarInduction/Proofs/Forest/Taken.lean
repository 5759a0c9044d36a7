import GrammarInduction.Occurrence
import GrammarInduction.Proofs.Forest.Sweep

/-!
What a pass leaves of other labels. The runs that it takes have spans, which follow each other
without an overlap; labels without the new name stand in the list afterwards exactly where they
stood before, clear of all spans taken. The spans that are taken are found among those of all runs
by keeping, from left to right, whatever begins behind the last one kept.
-/
namespace GrammarInduction

namespace Span

lemma isDisjoint_eq_true_iff {a b : Span} :
    a.isDisjoint b = true ↔ a.last < b.first ∨ b.last < a.first := by
  rw [isDisjoint, Bool.or_eq_true, decide_eq_true_eq, decide_eq_true_eq]

lemma contains_eq_true_iff {a b : Span} :
    a.contains b = true ↔ a.first ≤ b.first ∧ b.last ≤ a.last := by
  rw [contains, Bool.and_eq_true, decide_eq_true_eq, decide_eq_true_eq]

/-- Of spans in the order of their starts, those that begin at a position or behind it, and behind
the last one kept. -/
def apartFrom (bound : Nat) : List Span → List Span
  | [] => []
  | s :: ss => if bound ≤ s.first then s :: apartFrom (s.last + 1) ss else apartFrom bound ss

/-- Of spans in the order of their starts, those that begin behind the last one kept. -/
def apart (ss : List Span) : List Span := apartFrom 0 ss

/-- The first span is always kept. -/
theorem exists_mem_apart {ss : List Span} (h : ss ≠ []) : ∃ s ∈ apart ss, s ∈ ss := by
  obtain ⟨s, ss, rfl⟩ := List.exists_cons_of_ne_nil h
  refine ⟨s, ?_, List.mem_cons_self⟩
  rw [apart, apartFrom, if_pos (Nat.zero_le _)]
  exact List.mem_cons_self

/-- Only the spans behind the bound count. -/
theorem apartFrom_filter {bound bound' : Nat} (hle : bound ≤ bound') {ss : List Span}
    (hss : ∀ s ∈ ss, s.first ≤ s.last) :
    apartFrom bound' (ss.filter fun s => bound ≤ s.first) = apartFrom bound' ss := by
  induction ss generalizing bound' with
  | nil => rfl
  | cons s ss ih =>
    rw [List.forall_mem_cons] at hss
    by_cases hs : bound ≤ s.first
    · rw [List.filter_cons_of_pos (by simpa using hs), apartFrom, apartFrom, ih hle hss.2,
        ih (by omega) hss.2]
    · rw [List.filter_cons_of_neg (by simpa using hs), apartFrom, if_neg (by omega), ih hle hss.2]

/-- Where all spans are behind it the bound does not matter. -/
theorem apartFrom_congr {bound bound' : Nat} {ss : List Span} (h : ∀ s ∈ ss, bound ≤ s.first)
    (h' : ∀ s ∈ ss, bound' ≤ s.first) : apartFrom bound ss = apartFrom bound' ss := by
  cases ss with
  | nil => rfl
  | cons s ss =>
    rw [apartFrom, apartFrom, if_pos (h s List.mem_cons_self), if_pos (h' s List.mem_cons_self)]

end Span

namespace Grouping

section

/-- The spans of the runs that a pass takes from labels, the first of which has a position. -/
def taken (pattern : List String) (start : Nat) : List String → List Span
  | [] => []
  | l :: ls =>
    if pattern <+: l :: ls then
      ⟨start, start + pattern.length - 1⟩ ::
        taken pattern (start + pattern.length) (ls.drop (pattern.length - 1))
    else taken pattern (start + 1) ls
termination_by ls => ls.length
decreasing_by
  · rw [List.length_drop, List.length_cons]; omega
  · rw [List.length_cons]; omega

/-- A span holds a run with certain labels, where the first of all labels has a position. -/
structure IsRun (q : List String) (start : Nat) (ls : List String) (t : Span) : Prop where
  le_first : start ≤ t.first
  labels : q <+: ls.drop (t.first - start)
  last : t.last + 1 = t.first + q.length

variable {pattern q ls : List String} {start : Nat} {t : Span}

/-- Labels before a run do not matter. -/
lemma isRun_drop_iff {n : Nat} (h : start + n ≤ t.first) :
    IsRun q (start + n) (ls.drop n) t ↔ IsRun q start ls t := by
  have hdrop : (ls.drop n).drop (t.first - (start + n)) = ls.drop (t.first - start) := by
    rw [List.drop_drop]
    congr 1
    omega
  constructor
  · exact fun hr => ⟨by omega, hdrop ▸ hr.labels, hr.last⟩
  · exact fun hr => ⟨h, hdrop ▸ hr.labels, hr.last⟩

lemma isRun_append_iff {as rest : List String} (h : start + as.length ≤ t.first) :
    IsRun q (start + as.length) rest t ↔ IsRun q start (as ++ rest) t := by
  rw [← isRun_drop_iff h, List.drop_left]

lemma isRun_cons_iff {l : String} (h : start + 1 ≤ t.first) :
    IsRun q (start + 1) ls t ↔ IsRun q start (l :: ls) t := by
  rw [← isRun_drop_iff h]
  rfl

/-- The run at the beginning. -/
theorem isRun_start (hq : q ≠ []) (h : q <+: ls) (start : Nat) :
    IsRun q start ls ⟨start, start + q.length - 1⟩ := by
  have hpos := List.length_pos_of_ne_nil hq
  refine ⟨Nat.le_refl _, ?_, ?_⟩
  · simpa using h
  · dsimp only
    omega

lemma IsRun.prefix_of_first_eq (h : IsRun q start ls t) (hfirst : t.first = start) : q <+: ls := by
  have hlabels := h.labels
  rwa [hfirst, Nat.sub_self, List.drop_zero] at hlabels

/-- A run is at the beginning or begins further behind. -/
theorem exists_isRun_cons_iff (hq : q ≠ []) {l : String} {C : Span → Prop} :
    (∃ t, IsRun q start (l :: ls) t ∧ C t) ↔
      (q <+: l :: ls ∧ C ⟨start, start + q.length - 1⟩) ∨
        ∃ t, IsRun q (start + 1) ls t ∧ C t := by
  constructor
  · rintro ⟨t, ht, hC⟩
    have hle := ht.le_first
    by_cases hfirst : t.first = start
    · have ht' : t = ⟨start, start + q.length - 1⟩ := by
        have := ht.last
        rw [← hfirst, Span.mk.injEq]
        exact ⟨rfl, by omega⟩
      exact .inl ⟨ht.prefix_of_first_eq hfirst, ht' ▸ hC⟩
    · exact .inr ⟨t, (isRun_cons_iff (by omega)).mpr ht, hC⟩
  · rintro (⟨hpre, hC⟩ | ⟨t, ht, hC⟩)
    · exact ⟨_, isRun_start hq hpre start, hC⟩
    · exact ⟨t, (isRun_cons_iff ht.le_first).mp ht, hC⟩

/-- A run that is clear of the labels at the beginning is behind them. -/
theorem isRun_behind_iff (hne : pattern ≠ []) (hq : q ≠ []) {rest : List String} :
    (IsRun q start (pattern ++ rest) t ∧
      (⟨start, start + pattern.length - 1⟩ : Span).isDisjoint t = true) ↔
      IsRun q (start + pattern.length) rest t := by
  have hpos := List.length_pos_of_ne_nil hne
  have hqpos := List.length_pos_of_ne_nil hq
  rw [Span.isDisjoint_eq_true_iff]
  constructor
  · rintro ⟨ht, hclear⟩
    have := ht.le_first
    have := ht.last
    exact (isRun_append_iff (by dsimp only at hclear; omega)).mpr ht
  · intro ht
    have := ht.le_first
    exact ⟨(isRun_append_iff ht.le_first).mp ht, .inl (by dsimp only; omega)⟩

lemma IsRun.isInfix (h : IsRun q start ls t) : q <:+: ls :=
  h.labels.isInfix.trans (List.drop_suffix _ _).isInfix

lemma exists_isRun (hq : q ≠ []) (h : q <:+: ls) (start : Nat) : ∃ t, IsRun q start ls t := by
  obtain ⟨before, after, rfl⟩ := h
  have hpos := List.length_pos_of_ne_nil hq
  refine ⟨⟨start + before.length, start + before.length + q.length - 1⟩, Nat.le_add_right _ _, ?_, ?_⟩
  · rw [Nat.add_sub_cancel_left, List.append_assoc, List.drop_left]
    exact List.prefix_append _ _
  · dsimp only
    omega

/-- A run within a run is a run. -/
theorem IsRun.trans {p : List String} {m : Span} (hq : q ≠ []) (hm : IsRun p start ls m)
    (ht : IsRun q m.first p t) : IsRun q start ls t ∧ m.contains t = true := by
  have hpos := List.length_pos_of_ne_nil hq
  have := hm.le_first
  have := hm.last
  have := ht.le_first
  have := ht.last
  have hlen := ht.labels.length_le
  rw [List.length_drop] at hlen
  refine ⟨⟨by omega, ?_, ht.last⟩, Span.contains_eq_true_iff.mpr (by omega)⟩
  have hdrop := hm.labels.drop (t.first - m.first)
  rw [List.drop_drop, show m.first - start + (t.first - m.first) = t.first - start by omega] at hdrop
  exact ht.labels.trans hdrop

/-- The labels of a run that another one covers are among those of the other one. -/
theorem IsRun.infix_of_contains {p : List String} {m : Span} (hm : IsRun p start ls m)
    (ht : IsRun q start ls t) (h : m.contains t = true) : q <:+: p := by
  rw [Span.contains_eq_true_iff] at h
  have := hm.le_first
  have := hm.last
  have := ht.last
  have hdrop := hm.labels.drop (t.first - m.first)
  rw [List.drop_drop, show m.first - start + (t.first - m.first) = t.first - start by omega] at hdrop
  have hle : q.length ≤ (p.drop (t.first - m.first)).length := by
    rw [List.length_drop]
    omega
  exact (List.prefix_of_prefix_length_le ht.labels hdrop hle).isInfix.trans
    (List.drop_suffix _ _).isInfix

@[simp] lemma taken_nil (start : Nat) : taken pattern start [] = [] := by rw [taken]

lemma taken_skip {l : String} {ls : List String} (h : ¬pattern <+: l :: ls) (start : Nat) :
    taken pattern start (l :: ls) = taken pattern (start + 1) ls := by rw [taken, if_neg h]

lemma taken_take (hne : pattern ≠ []) (rest : List String) (start : Nat) :
    taken pattern start (pattern ++ rest) =
      ⟨start, start + pattern.length - 1⟩ :: taken pattern (start + pattern.length) rest := by
  cases pattern with
  | nil => exact absurd rfl hne
  | cons l ls =>
    have hpre : l :: ls <+: l :: (ls ++ rest) := List.prefix_append (l :: ls) rest
    rw [List.cons_append, taken, if_pos hpre]
    simp

/-- An induction along a pass over labels. -/
theorem labels_induct (hne : pattern ≠ []) {P : List String → Prop} (nil : P [])
    (take : ∀ rest, P rest → P (pattern ++ rest))
    (skip : ∀ l ls, ¬pattern <+: l :: ls → P ls → P (l :: ls)) (ls : List String) : P ls := by
  refine pass_induct (fun l => l) hne nil ?_ ?_ ls
  · intro run rest hrun
    rw [List.map_id'] at hrun
    exact hrun ▸ take rest
  · intro l ls h
    rw [List.map_id'] at h
    exact skip l ls h

/-- Taken spans are those of runs. -/
theorem isRun_of_mem_taken (hne : pattern ≠ []) {m : Span} (h : m ∈ taken pattern start ls) :
    IsRun pattern start ls m := by
  induction ls using labels_induct hne generalizing start with
  | nil => simp at h
  | take rest ih =>
    rw [taken_take hne, List.mem_cons] at h
    rcases h with rfl | h
    · exact isRun_start hne (List.prefix_append _ _) start
    · exact (isRun_append_iff (ih h).le_first).mp (ih h)
  | skip l ls hno ih =>
    rw [taken_skip hno] at h
    exact (isRun_cons_iff (ih h).le_first).mp (ih h)

/-- A pass takes a run wherever there is one at all. -/
theorem taken_ne_nil (hne : pattern ≠ []) (h : pattern <:+: ls) (start : Nat) :
    taken pattern start ls ≠ [] := by
  induction ls using labels_induct hne generalizing start with
  | nil => exact absurd (List.infix_nil.mp h) hne
  | take rest ih => rw [taken_take hne]; exact List.cons_ne_nil _ _
  | skip l ls hno ih =>
    rw [taken_skip hno]
    exact ih ((List.infix_cons_iff.mp h).resolve_left hno) _

/-- Taken spans follow each other without an overlap. -/
theorem pairwise_taken (hne : pattern ≠ []) (ls : List String) (start : Nat) :
    (taken pattern start ls).Pairwise fun m n => m.last < n.first := by
  have hpos := List.length_pos_of_ne_nil hne
  induction ls using labels_induct hne generalizing start with
  | nil => simp
  | take rest ih =>
    rw [taken_take hne, List.pairwise_cons]
    refine ⟨fun m hm => ?_, ih _⟩
    have := (isRun_of_mem_taken hne hm).le_first
    dsimp only
    omega
  | skip l ls hno ih => rw [taken_skip hno]; exact ih _

section

variable {ss : List Span} {rest : List String}

/-- Of all runs in their order the first one is that at the beginning, if there is one. -/
theorem eq_cons_of_isRun_start (hne : pattern ≠ [])
    (hsorted : ss.Pairwise fun s t => s.first < t.first)
    (hmem : ∀ t, t ∈ ss ↔ IsRun pattern start (pattern ++ rest) t) :
    ∃ ss', ss = ⟨start, start + pattern.length - 1⟩ :: ss' := by
  have hfirst : (⟨start, start + pattern.length - 1⟩ : Span) ∈ ss :=
    (hmem _).mpr (isRun_start hne (List.prefix_append _ _) start)
  obtain ⟨s, ss, rfl⟩ := List.exists_cons_of_ne_nil (List.ne_nil_of_mem hfirst)
  refine ⟨ss, ?_⟩
  rcases List.mem_cons.mp hfirst with h | h
  · rw [h]
  · -- No run begins before the labels do.
    have := (List.pairwise_cons.mp hsorted).1 _ h
    have := ((hmem s).mp List.mem_cons_self).le_first
    dsimp only at *
    omega

/-- Those that begin behind the run at the beginning are the runs of the labels behind it. -/
theorem mem_filter_iff_isRun (hne : pattern ≠ []) {bound : Span} (hbound : bound.first = start)
    (hmem : ∀ t, t ∈ bound :: ss ↔ IsRun pattern start (pattern ++ rest) t) :
    ∀ t, (t ∈ ss.filter fun t => start + pattern.length ≤ t.first) ↔
      IsRun pattern (start + pattern.length) rest t := by
  have hpos := List.length_pos_of_ne_nil hne
  intro t
  rw [List.mem_filter, decide_eq_true_eq]
  constructor
  · rintro ⟨ht, hle⟩
    exact (isRun_append_iff hle).mpr ((hmem t).mp (List.mem_cons_of_mem _ ht))
  · intro ht
    have hle := ht.le_first
    refine ⟨(List.mem_cons.mp ((hmem t).mpr ((isRun_append_iff hle).mp ht))).resolve_left ?_, hle⟩
    rintro rfl
    omega

/-- The spans that a pass takes, found among those of all runs in their order. -/
theorem apartFrom_eq_taken (hne : pattern ≠ [])
    (hsorted : ss.Pairwise fun s t => s.first < t.first)
    (hmem : ∀ t, t ∈ ss ↔ IsRun pattern start ls t) :
    Span.apartFrom start ss = taken pattern start ls := by
  have hpos := List.length_pos_of_ne_nil hne
  induction ls using labels_induct hne generalizing start ss with
  | nil =>
    cases ss with
    | nil => rw [Span.apartFrom, taken_nil]
    | cons s ss => exact absurd (List.infix_nil.mp ((hmem s).mp List.mem_cons_self).isInfix) hne
  | take rest ih =>
    obtain ⟨ss, rfl⟩ := eq_cons_of_isRun_start hne hsorted hmem
    have hordered : ∀ t ∈ ss, t.first ≤ t.last := by
      intro t ht
      have := ((hmem t).mp (List.mem_cons_of_mem _ ht)).last
      omega
    rw [Span.apartFrom, if_pos (Nat.le_refl _), taken_take hne,
      show start + pattern.length - 1 + 1 = start + pattern.length by omega,
      ← Span.apartFrom_filter (Nat.le_refl _) hordered,
      ih ((List.pairwise_cons.mp hsorted).2.filter _) (mem_filter_iff_isRun hne rfl hmem)]
  | skip l ls hno ih =>
    have hlater : ∀ t ∈ ss, start + 1 ≤ t.first := by
      intro t ht
      have hrun := (hmem t).mp ht
      have := hrun.le_first
      by_contra hlt
      exact hno (hrun.prefix_of_first_eq (by omega))
    rw [taken_skip hno, ← ih hsorted]
    · refine Span.apartFrom_congr (fun t ht => ?_) hlater
      have := hlater t ht
      omega
    · intro t
      rw [hmem]
      constructor
      · exact fun h => (isRun_cons_iff (hlater t ((hmem t).mpr h))).mpr h
      · exact fun h => (isRun_cons_iff h.le_first).mp h

end

end

section

variable {g : Grouping} {ls q : List String} (hne : g.pattern ≠ [])

include hne in
lemma sweepLabels_take (rest : List String) :
    g.sweepLabels (g.pattern ++ rest) = g.id :: g.sweepLabels rest :=
  pass_take hne rest (List.map_id' g.pattern)

lemma sweepLabels_skip {l : String} (h : ¬g.pattern <+: l :: ls) :
    g.sweepLabels (l :: ls) = l :: g.sweepLabels ls := pass_skip (by rwa [List.map_id'])

@[simp] lemma sweepLabels_nil : g.sweepLabels [] = [] := pass_nil

include hne in
lemma length_sweepLabels_le : (g.sweepLabels ls).length ≤ ls.length := by
  have hpos := List.length_pos_of_ne_nil hne
  induction ls using labels_induct hne with
  | nil => simp
  | take rest ih =>
    rw [sweepLabels_take hne, List.length_cons, List.length_append]
    omega
  | skip l ls hno ih =>
    rw [sweepLabels_skip hno, List.length_cons, List.length_cons]
    omega

include hne in
/-- Labels without the new name stand at the beginning after a pass if they stood there before and
no taken run reaches into them. -/
theorem prefix_sweepLabels_iff (hq : g.id ∉ q) (start : Nat) :
    q <+: g.sweepLabels ls ↔
      q <+: ls ∧ ∀ m ∈ taken g.pattern start ls, start + q.length ≤ m.first := by
  induction ls using labels_induct hne generalizing q start with
  | nil => simp
  | take rest ih =>
    rw [sweepLabels_take hne, taken_take hne]
    constructor
    · intro h
      obtain rfl := eq_nil_of_prefix_cons hq h
      refine ⟨List.nil_prefix, fun m hm => ?_⟩
      rw [← taken_take hne] at hm
      exact (isRun_of_mem_taken hne hm).le_first
    · rintro ⟨-, h⟩
      have hlen : q.length = 0 := by
        have := h _ List.mem_cons_self
        dsimp only at this
        omega
      rw [List.length_eq_zero_iff.mp hlen]
      exact List.nil_prefix
  | skip l ls hno ih =>
    rw [sweepLabels_skip hno, taken_skip hno]
    cases q with
    | nil =>
      refine ⟨fun _ => ⟨List.nil_prefix, fun m hm => ?_⟩, fun _ => List.nil_prefix⟩
      have := (isRun_of_mem_taken hne hm).le_first
      rw [List.length_nil]
      omega
    | cons x q =>
      rw [List.mem_cons, not_or] at hq
      rw [List.cons_prefix_cons, List.cons_prefix_cons, ih hq.2 (start + 1), and_assoc,
        List.length_cons, Nat.add_right_comm, Nat.add_assoc start]

include hne in
/-- Labels without the new name stand somewhere after a pass if they stood somewhere before, clear
of all taken runs. -/
theorem infix_sweepLabels_iff (hq : g.id ∉ q) (hqne : q ≠ []) (start : Nat) :
    q <:+: g.sweepLabels ls ↔ ∃ t : Span, IsRun q start ls t ∧
      ∀ m ∈ taken g.pattern start ls, m.isDisjoint t = true := by
  have hqpos := List.length_pos_of_ne_nil hqne
  induction ls using labels_induct hne generalizing start with
  | nil =>
    rw [sweepLabels_nil, List.infix_nil]
    refine iff_of_false hqne ?_
    rintro ⟨t, ht, -⟩
    exact hqne (List.infix_nil.mp ht.isInfix)
  | take rest ih =>
    have hnode : ¬q <+: g.id :: g.sweepLabels rest := fun h => hqne (eq_nil_of_prefix_cons hq h)
    rw [sweepLabels_take hne, taken_take hne, List.infix_cons_iff, or_iff_right hnode]
    simp only [List.forall_mem_cons, ← and_assoc, isRun_behind_iff hne hqne]
    exact ih _
  | skip l ls hno ih =>
    rw [sweepLabels_skip hno, List.infix_cons_iff, ← sweepLabels_skip hno,
      prefix_sweepLabels_iff hne hq start, taken_skip hno, exists_isRun_cons_iff hqne]
    refine or_congr (and_congr_right fun _ => forall₂_congr fun m hm => ?_) (ih _)
    -- The taken runs begin behind the first label.
    have := (isRun_of_mem_taken hne hm).le_first
    rw [Span.isDisjoint_eq_true_iff]
    have := (isRun_of_mem_taken hne hm).last
    dsimp only
    omega

include hne in
/-- A pass makes no new runs of labels without the new name. -/
theorem infix_of_infix_sweepLabels (hq : g.id ∉ q) (hqne : q ≠ []) (h : q <:+: g.sweepLabels ls) :
    q <:+: ls := by
  obtain ⟨t, ht, -⟩ := (infix_sweepLabels_iff hne hq hqne 0).mp h
  exact ht.isInfix

include hne in
/-- A pass leaves no run of its pattern. -/
theorem not_infix_sweepLabels (hid : g.id ∉ g.pattern) : ¬g.pattern <:+: g.sweepLabels ls := by
  induction ls using labels_induct hne with
  | nil => simpa using hne
  | take rest ih =>
    rw [sweepLabels_take hne, List.infix_cons_iff]
    rintro (h | h)
    · exact hne (eq_nil_of_prefix_cons hid h)
    · exact ih h
  | skip l ls hno ih =>
    rw [sweepLabels_skip hno, List.infix_cons_iff, ← sweepLabels_skip hno,
      prefix_sweepLabels_iff hne hid 0]
    rintro (⟨h, -⟩ | h)
    · exact hno h
    · exact ih h

include hne in
/-- After a pass labels without the new name stand in the list or in a run that was taken, if they
stood somewhere before clear of each taken run or within it. -/
theorem remains_iff (hq : g.id ∉ q) (hqne : q ≠ []) (start : Nat) :
    (q <:+: g.sweepLabels ls ∨ (g.pattern <:+: ls ∧ q <:+: g.pattern)) ↔
      ∃ t : Span, IsRun q start ls t ∧
        ∀ m ∈ taken g.pattern start ls, m.isDisjoint t = true ∨ m.contains t = true := by
  constructor
  · rintro (h | ⟨hruns, hwithin⟩)
    · obtain ⟨t, ht, hclear⟩ := (infix_sweepLabels_iff hne hq hqne start).mp h
      exact ⟨t, ht, fun m hm => .inl (hclear m hm)⟩
    · obtain ⟨m, ms, hms⟩ := List.exists_cons_of_ne_nil (taken_ne_nil hne hruns start)
      have hm : m ∈ taken g.pattern start ls := hms ▸ List.mem_cons_self
      obtain ⟨t, ht⟩ := exists_isRun hqne hwithin m.first
      obtain ⟨hrun, hcontains⟩ := (isRun_of_mem_taken hne hm).trans hqne ht
      refine ⟨t, hrun, fun n hn => ?_⟩
      have hpairs := pairwise_taken hne ls start
      rw [hms] at hn hpairs
      rcases List.mem_cons.mp hn with rfl | hn
      · exact .inr hcontains
      · have := (List.pairwise_cons.mp hpairs).1 n hn
        have := Span.contains_eq_true_iff.mp hcontains
        exact .inl (Span.isDisjoint_eq_true_iff.mpr (by omega))
  · rintro ⟨t, ht, hall⟩
    by_cases hclear : ∀ m ∈ taken g.pattern start ls, m.isDisjoint t = true
    · exact .inl ((infix_sweepLabels_iff hne hq hqne start).mpr ⟨t, ht, hclear⟩)
    · obtain ⟨m, hm, hmeets⟩ : ∃ m ∈ taken g.pattern start ls, ¬m.isDisjoint t = true := by
        simpa using hclear
      have hrun := isRun_of_mem_taken hne hm
      exact .inr ⟨hrun.isInfix, hrun.infix_of_contains ht ((hall m hm).resolve_left hmeets)⟩

end

end Grouping
end GrammarInduction
