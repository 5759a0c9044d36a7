import Mathlib.Algebra.BigOperators.Field
import Mathlib.Algebra.BigOperators.Intervals
import Mathlib.Algebra.Order.Field.Rat
import Mathlib.Combinatorics.Colex
import Mathlib.Tactic.IntervalCases
import GrammarInduction.Neighbourhood.Likeness

/-!
The likeness of two sides by the positions at which they agree, counted from the run outwards.
Different sides score the weights of these positions, and each weight is greater than all further
ones together: in binary, a position is a place. So the likeness is a binary number of four places,
and of two such numbers the one with the first place that the other lacks is greater.
-/
namespace GrammarInduction
namespace Likeness

/-- Two outward sides agree at a position: both have the same neighbour there, which is not hidden,
or both have come to an end at once. -/
def AgreeAt (a b : Side) (i : Nat) : Prop :=
  (i < a.length ∧ a[i]? = b[i]? ∧ a[i]? ≠ some .hidden) ∨ (a.length = b.length ∧ a.length ≤ i)

instance (a b : Side) : DecidablePred (AgreeAt a b) := fun _ => inferInstanceAs (Decidable (_ ∨ _))

/-- Sides that end here agree from here on. -/
theorem agreeAt_nil_nil (i : Nat) : AgreeAt [] [] i := .inr ⟨rfl, Nat.zero_le i⟩

lemma not_agreeAt_nil_cons (y : Neighbour) (b : Side) (i : Nat) : ¬AgreeAt [] (y :: b) i := by
  simp [AgreeAt]

lemma not_agreeAt_cons_nil (x : Neighbour) (a : Side) (i : Nat) : ¬AgreeAt (x :: a) [] i := by
  rintro (⟨hlt, hget, -⟩ | ⟨hlen, -⟩)
  · rw [List.getElem?_eq_getElem hlt] at hget
    cases hget
  · cases hlen

lemma agreeAt_cons_zero (x y : Neighbour) (a b : Side) :
    AgreeAt (x :: a) (y :: b) 0 ↔ agree x y = true := by simp [AgreeAt, agree]

lemma agreeAt_cons_succ (x y : Neighbour) (a b : Side) (i : Nat) :
    AgreeAt (x :: a) (y :: b) (i + 1) ↔ AgreeAt a b i := by
  simp [AgreeAt]

/-- A scan adds up the weights of the positions at which the sides agree. -/
theorem scan_eq_sum (ws : List Nat) (a b : Side) :
    scan ws a b = ∑ i ∈ Finset.range ws.length with AgreeAt a b i, ws.getD i 0 := by
  induction ws generalizing a b with
  | nil => simp [scan]
  | cons w ws ih =>
    rw [Finset.sum_filter, List.length_cons, Finset.sum_range_succ']
    cases a with
    | nil =>
      cases b with
      | nil => simp [scan, agreeAt_nil_nil, ih, Nat.add_comm]
      | cons y b => simp [scan, not_agreeAt_nil_cons]
    | cons x a =>
      cases b with
      | nil => simp [scan, not_agreeAt_cons_nil]
      | cons y b =>
        simp [scan, agreeAt_cons_zero, agreeAt_cons_succ, ih, Nat.add_comm, Finset.sum_filter]

/-- The binary places of the likeness of two sides, the nearest position being the highest. -/
def places (flank : Flank) (a b : Side) : Finset Nat :=
  (Finset.range 4).filter fun e => AgreeAt (flank.outward a) (flank.outward b) (3 - e)

variable {flank : Flank} {a b : Side}

/-- Different sides score the weight of each position at which they agree. -/
theorem sides_of_ne (flank : Flank) (h : a ≠ b) : sides flank a b =
    ∑ i ∈ Finset.range 4 with AgreeAt (flank.outward a) (flank.outward b) i, 2 ^ (3 - i) := by
  rw [sides, if_neg h, scan_eq_sum]
  refine Finset.sum_congr rfl fun i hi => ?_
  have hlt : i < 4 := Finset.mem_range.mp (Finset.mem_of_mem_filter i hi)
  interval_cases i <;> rfl

/-- Their likeness is the binary number with these places. -/
theorem sides_eq_sum_places (flank : Flank) (h : a ≠ b) :
    sides flank a b = ∑ e ∈ places flank a b, 2 ^ e := by
  rw [sides_of_ne flank h, Finset.sum_filter, ← Finset.sum_range_reflect, places, Finset.sum_filter]
  refine Finset.sum_congr rfl fun e he => ?_
  have : 3 - (3 - e) = e := by
    have := Finset.mem_range.mp he
    omega
  simp [this]

/-- Sides that differ miss the half, by one at least. -/
theorem sides_lt_half (flank : Flank) (h : a ≠ b) : sides flank a b < whole / 2 := by
  rw [sides_eq_sum_places flank h]
  exact Nat.geomSum_lt (Nat.le_refl 2) fun e he =>
    Finset.mem_range.mp (Finset.mem_of_mem_filter e he)

lemma sides_le_half (flank : Flank) (a b : Side) : sides flank a b ≤ whole / 2 := by
  by_cases h : a = b
  · rw [sides, if_pos h]
  · exact (sides_lt_half flank h).le

lemma sides_eq_half_iff : sides flank a b = whole / 2 ↔ a = b := by
  constructor
  · intro hhalf
    by_contra h
    exact (sides_lt_half flank h).ne hhalf
  · intro h
    rw [sides, if_pos h]

lemma sides_reverse (a b : Side) : sides .left a b = sides .right a.reverse b.reverse := by
  simp [sides, Flank.outward]

/-- The nearest position at which two sides agree and one of them and a third do not outweighs all
further ones. -/
theorem sides_lt_sides {s t u : Side} (ht : s ≠ t) (hu : s ≠ u) {k : Nat} (hk : k < 4)
    (hbefore : ∀ i < k, (AgreeAt (flank.outward s) (flank.outward t) i ↔
      AgreeAt (flank.outward s) (flank.outward u) i))
    (hagree : AgreeAt (flank.outward s) (flank.outward t) k)
    (hnot : ¬AgreeAt (flank.outward s) (flank.outward u) k) :
    sides flank s u < sides flank s t := by
  rw [sides_eq_sum_places flank ht, sides_eq_sum_places flank hu,
    Finset.geomSum_lt_geomSum_iff_toColex_lt_toColex (Nat.le_refl 2),
    Finset.Colex.toColex_lt_toColex_iff_exists_forall_lt]
  have hplace : 3 - (3 - k) = k := by omega
  refine ⟨3 - k, ?_, ?_, fun e he hne => ?_⟩
  · simp [places, hplace, hagree]
    omega
  · simp [places, hplace, hnot]
  · -- A higher place stands for a position before this one, where both agree alike.
    simp only [places, Finset.mem_filter, Finset.mem_range, not_and] at he hne
    by_contra hle
    have hlt : 3 - e < k := by
      have : 3 - e ≠ k := fun heq => hnot (heq ▸ he.2)
      omega
    exact hne he.1 ((hbefore _ hlt).mpr he.2)

/-- A likeness as a share of the whole. -/
def share (likeness : Nat) : ℚ := likeness / whole

lemma strictMono_share : StrictMono share := by
  intro m n h
  rw [share, share, div_lt_div_iff_of_pos_right (by norm_num [whole]), Nat.cast_lt]
  exact h

lemma share_half : share (whole / 2) = 1 / 2 := by norm_num [share, whole]

/-- As shares of the whole the weights are a quarter, an eighth and so on. -/
theorem share_sides_of_ne (flank : Flank) (h : a ≠ b) : share (sides flank a b) =
    ∑ i ∈ Finset.range 4 with AgreeAt (flank.outward a) (flank.outward b) i, 1 / 2 ^ (i + 2) := by
  rw [share, sides_of_ne flank h, Nat.cast_sum, Finset.sum_div]
  refine Finset.sum_congr rfl fun i hi => ?_
  have hlt : i < 4 := Finset.mem_range.mp (Finset.mem_of_mem_filter i hi)
  interval_cases i <;> norm_num [whole]

/-- The likeness of two sides is symmetric, and that of left sides is that of the mirrored right
ones. As a share of the whole it lies between zero and a half, is a half exactly for equal sides,
and for others adds up the weights of the positions at which these agree, which is fifteen
thirty-seconds at most. A side is more like another one than like a third if they agree at some
position and the third does not, where up to there all agree alike. -/
theorem sides_weigh_positions (flank : Flank) (s t : Side) :
    sides flank s t = sides flank t s ∧
    sides .left s t = sides .right s.reverse t.reverse ∧
    share (sides flank s t) ∈ Set.Icc 0 (1 / 2) ∧
    (share (sides flank s t) = 1 / 2 ↔ s = t) ∧
    (s ≠ t → share (sides flank s t) ≤ 15 / 32 ∧
      share (sides flank s t) = ∑ i ∈ Finset.range Neighbourhood.width with
        AgreeAt (flank.outward s) (flank.outward t) i, 1 / 2 ^ (i + 2)) ∧
    ∀ u, s ≠ t → s ≠ u → ∀ k < Neighbourhood.width,
      (∀ i < k, (AgreeAt (flank.outward s) (flank.outward t) i ↔
        AgreeAt (flank.outward s) (flank.outward u) i)) →
      AgreeAt (flank.outward s) (flank.outward t) k →
      ¬AgreeAt (flank.outward s) (flank.outward u) k →
      share (sides flank s u) < share (sides flank s t) := by
  have hfifteen : share 15 = 15 / 32 := by norm_num [share, whole]
  refine ⟨sides_comm flank s t, sides_reverse s t, ⟨?_, ?_⟩, ?_, fun h => ⟨?_, ?_⟩, ?_⟩
  · exact div_nonneg (Nat.cast_nonneg _) (Nat.cast_nonneg _)
  · rw [← share_half, strictMono_share.le_iff_le]
    exact sides_le_half flank s t
  · rw [← share_half, strictMono_share.injective.eq_iff, sides_eq_half_iff]
  · rw [← hfifteen, strictMono_share.le_iff_le]
    exact Nat.le_of_lt_succ (sides_lt_half flank h)
  · exact share_sides_of_ne flank h
  · intro u ht hu k hk hbefore hagree hnot
    exact strictMono_share (sides_lt_sides ht hu hk hbefore hagree hnot)

/-- A left side of four neighbours, one that has the nearest of them only, and one that has all but
the nearest. -/
def fourLeft : Side := [.symbol 0, .symbol 1, .symbol 2, .symbol 3]

def nearestLeft : Side := [.start, .hidden, .symbol 5, .symbol 3]

def furtherLeft : Side := [.symbol 0, .symbol 1, .symbol 2, .symbol 4]

/-- The nearest neighbour alone counts more than the three behind it. -/
theorem sides_weigh_positions_fourLeft :
    fourLeft ≠ nearestLeft ∧ fourLeft ≠ furtherLeft ∧
      AgreeAt (Flank.left.outward fourLeft) (Flank.left.outward nearestLeft) 0 ∧
      ¬AgreeAt (Flank.left.outward fourLeft) (Flank.left.outward furtherLeft) 0 ∧
      share (sides .left fourLeft nearestLeft) = 8 / 32 ∧
      share (sides .left fourLeft furtherLeft) = 7 / 32 ∧
      share (sides .left fourLeft furtherLeft) < share (sides .left fourLeft nearestLeft) ∧
      share (sides .left fourLeft furtherLeft) ≤ 15 / 32 := by
  have hnearest : fourLeft ≠ nearestLeft := by decide
  have hfurther : fourLeft ≠ furtherLeft := by decide
  have hagree : AgreeAt (Flank.left.outward fourLeft) (Flank.left.outward nearestLeft) 0 := by decide
  have hnot : ¬AgreeAt (Flank.left.outward fourLeft) (Flank.left.outward furtherLeft) 0 := by decide
  have h8 : sides .left fourLeft nearestLeft = 8 := by decide
  have h7 : sides .left fourLeft furtherLeft = 7 := by decide
  obtain ⟨-, -, -, -, -, hmore⟩ := sides_weigh_positions .left fourLeft nearestLeft
  obtain ⟨-, -, -, -, hle, -⟩ := sides_weigh_positions .left fourLeft furtherLeft
  refine ⟨hnearest, hfurther, hagree, hnot, ?_, ?_, ?_, (hle hfurther).1⟩
  · rw [h8]
    rfl
  · rw [h7]
    rfl
  · exact hmore furtherLeft hnearest hfurther 0 (by decide) (by simp) hagree hnot

end Likeness
end GrammarInduction
