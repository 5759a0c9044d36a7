import Mathlib.Data.List.Infix
import GrammarInduction.Forest.Seed

/-!
Nested brackets. Token lists in which no prefix has more closing than opening brackets, and the
whole as many of both, are those that a grammar makes from ordinary tokens and bracketed segments;
of two segments one contains the other, or they lie apart.
-/
namespace GrammarInduction

variable {w v p s x y : List String} {o c t : String}

def IsOrdinary (token : String) : Prop := opensSegment token = false ∧ closesSegment token = false

/-- An opening bracket and a closing one, whatever their kinds. -/
def IsPair (o c : String) : Prop := opensSegment o = true ∧ closesSegment c = true

lemma closesSegment_of_opensSegment (h : opensSegment t = true) : closesSegment t = false := by
  simp only [opensSegment, Bool.or_eq_true, beq_iff_eq] at h
  rcases h with (rfl | rfl) | rfl <;> decide

lemma opensSegment_of_closesSegment (h : closesSegment t = true) : opensSegment t = false := by
  rw [← Bool.not_eq_true]
  intro ho
  rw [closesSegment_of_opensSegment ho] at h
  cases h

/-- No prefix has more closing than opening brackets, and the whole has as many of both. -/
def Nested (w : List String) : Prop :=
  (∀ p, p <+: w → p.countP closesSegment ≤ p.countP opensSegment) ∧
    w.countP opensSegment = w.countP closesSegment

instance : DecidablePred Nested := fun w =>
  decidable_of_iff ((∀ p ∈ w.inits, p.countP closesSegment ≤ p.countP opensSegment) ∧
    w.countP opensSegment = w.countP closesSegment) (by simp only [Nested, List.mem_inits])

/-- Token lists of tokens that stand alone and of segments between brackets that go together. -/
inductive Segmented (Alone : String → Prop) (Together : String → String → Prop) :
    List String → Prop
  | nil : Segmented Alone Together []
  | token {t : String} {w : List String} (ht : Alone t) (hw : Segmented Alone Together w) :
      Segmented Alone Together (t :: w)
  | segment {o c : String} {w v : List String} (hp : Together o c)
      (hw : Segmented Alone Together w) (hv : Segmented Alone Together v) :
      Segmented Alone Together (o :: w ++ c :: v)

/-- A prefix of two lists one after the other ends in the first or in the second one. -/
theorem prefix_append_cases (h : p <+: w ++ v) : p <+: w ∨ ∃ q, p = w ++ q ∧ q <+: v := by
  obtain ⟨rest, hrest⟩ := h
  rcases List.append_eq_append_iff.mp hrest with ⟨q, rfl, -⟩ | ⟨q, rfl, hq⟩
  · exact .inl (List.prefix_append p q)
  · exact .inr ⟨q, rfl, ⟨rest, hq.symm⟩⟩

namespace Nested

lemma nil : Nested [] := ⟨fun p hp => by rw [List.prefix_nil.mp hp]; exact Nat.le_refl _, rfl⟩

lemma cons (ht : IsOrdinary t) (h : Nested w) : Nested (t :: w) := by
  refine ⟨fun p hp => ?_, by simpa [ht.1, ht.2] using h.2⟩
  rcases List.prefix_cons_iff.mp hp with rfl | ⟨q, rfl, hq⟩
  · exact Nat.le_refl _
  · simpa [ht.1, ht.2] using h.1 q hq

lemma segment (hp : IsPair o c) (hw : Nested w) (hv : Nested v) : Nested (o :: w ++ c :: v) := by
  have ho := closesSegment_of_opensSegment hp.1
  have hc := opensSegment_of_closesSegment hp.2
  refine ⟨fun p h => ?_, ?_⟩
  · rcases List.prefix_cons_iff.mp h with rfl | ⟨q, rfl, hq⟩
    · exact Nat.le_refl _
    · simp only [List.countP_cons, hp.1, ho, if_true, Bool.false_eq_true, if_false]
      rcases prefix_append_cases hq with hq | ⟨r, rfl, hr⟩
      · have := hw.1 q hq
        omega
      · rcases List.prefix_cons_iff.mp hr with rfl | ⟨u, rfl, hu⟩
        · have := hw.2
          rw [List.append_nil]
          omega
        · have := hw.2
          have := hv.1 u hu
          simp only [List.countP_append, List.countP_cons, hp.2, hc, if_true, Bool.false_eq_true,
            if_false]
          omega
  · have := hw.2
    have := hv.2
    simp only [List.cons_append, List.countP_append, List.countP_cons, hp.1, hp.2, ho, hc, if_true,
      Bool.false_eq_true, if_false]
    omega

end Nested

lemma Segmented.nested (h : Segmented IsOrdinary IsPair w) : Nested w := by
  induction h with
  | nil => exact .nil
  | token ht _ ih => exact ih.cons ht
  | segment hp _ _ ihw ihv => exact ihw.segment hp ihv

/-- Segmented lists with a number of closing brackets between them that nothing opens. -/
inductive Surplus : Nat → List String → Prop
  | zero {w : List String} (hw : Segmented IsOrdinary IsPair w) : Surplus 0 w
  | succ {d : Nat} {c : String} {w v : List String} (hw : Segmented IsOrdinary IsPair w)
      (hc : closesSegment c = true) (hv : Surplus d v) : Surplus (d + 1) (w ++ c :: v)

namespace Surplus

variable {d : Nat}

lemma cons (ht : IsOrdinary t) (h : Surplus d w) : Surplus d (t :: w) := by
  cases h with
  | zero hw => exact .zero (.token ht hw)
  | succ hw hc hv => exact .succ (.token ht hw) hc hv

/-- An opening bracket goes together with the first closing one that nothing opened. -/
theorem opening (ho : opensSegment o = true) (h : Surplus (d + 1) w) : Surplus d (o :: w) := by
  cases h with
  | succ hw hc hv =>
    cases hv with
    | zero hv => exact .zero (.segment ⟨ho, hc⟩ hw hv)
    | succ hv hc' hu =>
      have h := succ (.segment ⟨ho, hc⟩ hw hv) hc' hu
      rwa [List.cons_append, List.cons_append, List.append_assoc] at h

/-- Where no prefix has a greater surplus of closing brackets than the whole, segments can be
found. -/
theorem of_prefixes (hp : ∀ p, p <+: w → p.countP closesSegment ≤ p.countP opensSegment + d)
    (hw : w.countP closesSegment = w.countP opensSegment + d) : Surplus d w := by
  induction w generalizing d with
  | nil =>
    obtain rfl : d = 0 := by simpa using hw.symm
    exact .zero .nil
  | cons t w ih =>
    have htail : ∀ p, p <+: w → (t :: p).countP closesSegment ≤ (t :: p).countP opensSegment + d :=
      fun p h => hp (t :: p) (List.cons_prefix_cons.mpr ⟨rfl, h⟩)
    simp only [List.countP_cons] at htail hw
    by_cases ho : opensSegment t = true
    · have hc := closesSegment_of_opensSegment ho
      simp only [ho, hc, if_true, Bool.false_eq_true, if_false] at htail hw
      refine opening ho (ih (fun p h => ?_) (by omega))
      have := htail p h
      omega
    · rw [Bool.not_eq_true] at ho
      by_cases hc : closesSegment t = true
      · simp only [ho, hc, if_true, Bool.false_eq_true, if_false] at htail hw
        have hone := htail [] List.nil_prefix
        obtain ⟨d, rfl⟩ : ∃ e, d = e + 1 := ⟨d - 1, by simp at hone; omega⟩
        refine .succ .nil hc (ih (fun p h => ?_) (by omega))
        have := htail p h
        omega
      · rw [Bool.not_eq_true] at hc
        simp only [ho, hc, Bool.false_eq_true, if_false] at htail hw
        exact cons ⟨ho, hc⟩ (ih htail hw)

end Surplus

/-- The grammar makes all nested lists. -/
theorem Nested.segmented (h : Nested w) : Segmented IsOrdinary IsPair w := by
  have hsurplus : Surplus 0 w := .of_prefixes h.1 h.2.symm
  cases hsurplus with
  | zero hw => exact hw

def Bracketed (s : List String) : Prop :=
  ∃ o w c, s = o :: w ++ [c] ∧ IsPair o c ∧ Nested w

namespace Bracketed

lemma ne_nil (h : Bracketed s) : s ≠ [] := by
  obtain ⟨o, w, c, rfl, -⟩ := h
  simp

lemma nested (h : Bracketed s) : Nested s := by
  obtain ⟨o, w, c, rfl, hp, hw⟩ := h
  exact hw.segment hp .nil

/-- Within a segment the first bracket stays open. -/
theorem lt_of_prefix (h : Bracketed s) (hp : p <+: s) (hne : p ≠ []) (hproper : p ≠ s) :
    p.countP closesSegment < p.countP opensSegment := by
  obtain ⟨o, w, c, rfl, hpair, hw⟩ := h
  rcases List.prefix_concat_iff.mp hp with rfl | hp
  · exact absurd rfl hproper
  · rcases List.prefix_cons_iff.mp hp with rfl | ⟨q, rfl, hq⟩
    · exact absurd rfl hne
    · have := hw.1 q hq
      simp only [List.countP_cons, hpair.1, closesSegment_of_opensSegment hpair.1, if_true,
        Bool.false_eq_true, if_false]
      omega

/-- Two segments that begin at one place are the same. -/
theorem eq_of_prefix (h : Bracketed s) (hp : Bracketed p) (hps : p <+: s) : p = s := by
  by_contra hne
  have := h.lt_of_prefix hps hp.ne_nil hne
  have := hp.nested.2
  omega

/-- A segment that begins inside another one ends inside it. -/
theorem eq_nil_of_overlap (hs : Bracketed (x ++ p)) (hp : Bracketed (p ++ y)) (hx : x ≠ [])
    (hne : p ≠ []) : y = [] := by
  by_contra hy
  -- What is before the overlap and the overlap itself both leave brackets open.
  have hbefore := hs.lt_of_prefix (List.prefix_append x p) hx (by simpa using hne)
  have hoverlap := hp.lt_of_prefix (List.prefix_append p y) hne (by simpa using hy)
  have hcount := hs.nested.2
  rw [List.countP_append, List.countP_append] at hcount
  omega

end Bracketed

/-- A segment of a list that no other segment of it goes beyond. -/
structure IsMaximalSegment (w x s y : List String) : Prop where
  eq_append : w = x ++ s ++ y
  bracketed : Bracketed s
  maximal : ∀ x' s' y', w = x' ++ s' ++ y' → Bracketed s' → x' <+: x → y' <:+ y → x' = x ∧ y' = y

namespace IsMaximalSegment

/-- A list that begins with an ordinary token has the maximal segments of the rest. -/
theorem of_cons (ht : IsOrdinary t) (h : IsMaximalSegment (t :: w) x s y) :
    ∃ x', x = t :: x' ∧ IsMaximalSegment w x' s y := by
  obtain ⟨heq, hs, hmax⟩ := h
  cases x with
  | nil =>
    obtain ⟨o, w', c, rfl, hp, -⟩ := hs
    obtain rfl : t = o := (List.cons.inj heq).1
    cases ht.1.symm.trans hp.1
  | cons t' x =>
    obtain ⟨rfl, rfl⟩ := List.cons.inj heq
    refine ⟨x, rfl, rfl, hs, fun x' s' y' heq' hs' hx hy => ?_⟩
    obtain ⟨hx', hy'⟩ := hmax (t :: x') s' y' (congrArg (t :: ·) heq') hs'
      (List.cons_prefix_cons.mpr ⟨rfl, hx⟩) hy
    exact ⟨(List.cons.inj hx').2, hy'⟩

/-- A list that begins with a segment has this one and the maximal segments of the rest. -/
theorem of_append (hb : Bracketed p) (h : IsMaximalSegment (p ++ w) x s y) :
    (x = [] ∧ s = p) ∨ ∃ x', x = p ++ x' ∧ IsMaximalSegment w x' s y := by
  obtain ⟨heq, hs, hmax⟩ := h
  -- A segment inside the first one is not maximal, unless it is the first one.
  have hinside : ∀ r, p = x ++ s ++ r → y = r ++ w → x = [] ∧ s = p := by
    rintro r hr rfl
    obtain ⟨rfl, hy⟩ := hmax [] p w (by simp) hb List.nil_prefix (List.suffix_append r w)
    obtain rfl : r = [] := List.append_left_eq_self.mp hy.symm
    exact ⟨rfl, by simpa using hr.symm⟩
  have hafter : ∀ x', x = p ++ x' → w = x' ++ s ++ y → IsMaximalSegment w x' s y := by
    rintro x' rfl hw
    refine ⟨hw, hs, fun z s' y' heq' hs' hz hy => ?_⟩
    obtain ⟨hx, hy'⟩ := hmax (p ++ z) s' y' (by simp [heq']) hs'
      ((List.prefix_append_right_inj p).mpr hz) hy
    exact ⟨List.append_cancel_left hx, hy'⟩
  rw [List.append_assoc] at heq
  rcases List.append_eq_append_iff.mp heq with ⟨x', hx, hw⟩ | ⟨q, hq, hrest⟩
  · exact .inr ⟨x', hx, hafter x' hx (by simpa using hw)⟩
  by_cases hnil : q = []
  · subst hnil
    have hx : x = p ++ [] := by simpa using hq.symm
    exact .inr ⟨[], hx, hafter [] hx (by simpa using hrest.symm)⟩
  left
  rcases List.append_eq_append_iff.mp hrest with ⟨r, hr, hy⟩ | ⟨r, hr, hw⟩
  · exact hinside r (by rw [hq, hr, List.append_assoc]) hy
  · by_cases hx : x = []
    · subst hx
      exact ⟨rfl, (hs.eq_of_prefix hb ⟨r, by rw [hr, hq]; rfl⟩).symm⟩
    · obtain rfl : r = [] := Bracketed.eq_nil_of_overlap (hq ▸ hb) (hr ▸ hs) hx hnil
      exact hinside [] (by rw [hq, hr, List.append_nil, List.append_nil]) hw.symm

end IsMaximalSegment

end GrammarInduction
