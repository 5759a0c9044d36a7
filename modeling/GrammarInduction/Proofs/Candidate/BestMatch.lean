import Mathlib.Order.Bounds.Basic
import GrammarInduction.Proofs.Candidate.Likeness

/-!
The best match of two candidates. Their likeness is the greatest one of a neighbourhood of either,
whatever the order in which these come and however often each was recorded: a search ends early only
at the whole, which no likeness exceeds and only equal neighbourhoods reach.
-/
namespace GrammarInduction

namespace Likeness

/-- Only equal neighbourhoods are wholly alike. -/
theorem neighbourhoods_eq_whole_iff {a b : Neighbourhood} :
    neighbourhoods a b = whole ↔ a = b := by
  constructor
  · intro hwhole
    by_contra hne
    rw [neighbourhoods, if_neg hne] at hwhole
    have hl := sides_le_half .left a.left b.left
    have hr := sides_le_half .right a.right b.right
    by_cases hleft : a.left = b.left
    · have hright : a.right ≠ b.right := fun h => hne (by cases a; cases b; simp_all)
      have := sides_lt_half .right hright
      omega
    · have := sides_lt_half .left hleft
      omega
  · rintro rfl
    rw [neighbourhoods, if_pos rfl]

end Likeness

namespace Candidate

/-- The likenesses of a neighbourhood of one candidate and one of another. -/
def matchScores (a b : Candidate) : Set Nat :=
  {score | ∃ x ∈ a.neighbourhoods.keys, ∃ y ∈ b.neighbourhoods.keys,
    Likeness.neighbourhoods x y = score}

variable {a b : Candidate}

lemma mem_neighbourhoodPairs {x y : Neighbourhood} :
    (x, y) ∈ neighbourhoodPairs a b ↔ x ∈ a.neighbourhoods.keys ∧ y ∈ b.neighbourhoods.keys := by
  simp [neighbourhoodPairs]

/-- A search depends on what pairs there are and not on their order. -/
theorem bestLikeness_congr {ps qs : List (Neighbourhood × Neighbourhood)}
    (h : ∀ p, p ∈ ps ↔ p ∈ qs) : bestLikeness 0 ps = bestLikeness 0 qs := by
  refine eq_of_forall_ge_iff fun n => ?_
  rw [bestLikeness_le_iff (Nat.zero_le _), bestLikeness_le_iff (Nat.zero_le _)]
  exact and_congr_right fun _ => forall_congr' fun p => imp_congr_left (h p)

/-- Only which neighbourhoods there are counts for the likeness. -/
theorem likeness_congr {a' b' : Candidate}
    (ha : ∀ n, n ∈ a'.neighbourhoods.keys ↔ n ∈ a.neighbourhoods.keys)
    (hb : ∀ n, n ∈ b'.neighbourhoods.keys ↔ n ∈ b.neighbourhoods.keys) :
    a'.likeness b' = a.likeness b :=
  bestLikeness_congr fun (x, y) => by rw [mem_neighbourhoodPairs, mem_neighbourhoodPairs, ha, hb]

lemma likeness_comm (a b : Candidate) : b.likeness a = a.likeness b := by
  refine eq_of_forall_ge_iff fun n => ?_
  rw [likeness_le_iff, likeness_le_iff]
  constructor
  · intro h x hx y hy
    exact Likeness.neighbourhoods_comm x y ▸ h y hy x hx
  · intro h y hy x hx
    exact Likeness.neighbourhoods_comm y x ▸ h x hx y hy

lemma likeness_le_whole (a b : Candidate) : a.likeness b ≤ Likeness.whole :=
  likeness_le_iff.mpr fun x _ y _ => Likeness.neighbourhoods_le_whole x y

/-- The likeness is reached by a pair of neighbourhoods, or it is zero. -/
theorem isGreatest_likeness (a b : Candidate) :
    IsGreatest (insert 0 (matchScores a b)) (a.likeness b) := by
  have hbound : ∀ x ∈ a.neighbourhoods.keys, ∀ y ∈ b.neighbourhoods.keys,
      Likeness.neighbourhoods x y ≤ a.likeness b := likeness_le_iff.mp (Nat.le_refl _)
  constructor
  · by_contra hnone
    obtain ⟨hpos, hscores⟩ := not_or.mp hnone
    -- If no pair reached the likeness, one less would bound them all.
    have hless : a.likeness b ≤ a.likeness b - 1 := by
      refine likeness_le_iff.mpr fun x hx y hy => ?_
      have hne : Likeness.neighbourhoods x y ≠ a.likeness b := fun h => hscores ⟨x, hx, y, hy, h⟩
      have := hbound x hx y hy
      omega
    omega
  · rintro score (rfl | ⟨x, hx, y, hy, rfl⟩)
    · exact Nat.zero_le _
    · exact hbound x hx y hy

/-- Candidates that share a neighbourhood are wholly alike, and no others. -/
theorem likeness_eq_whole_iff :
    a.likeness b = Likeness.whole ↔ ∃ n ∈ a.neighbourhoods.keys, n ∈ b.neighbourhoods.keys := by
  constructor
  · intro hwhole
    obtain hzero | ⟨x, hx, y, hy, hxy⟩ := (isGreatest_likeness a b).1
    · rw [hzero] at hwhole
      cases hwhole
    · obtain rfl := Likeness.neighbourhoods_eq_whole_iff.mp (hxy.trans hwhole)
      exact ⟨x, hx, hy⟩
  · rintro ⟨n, ha, hb⟩
    refine Nat.le_antisymm (likeness_le_whole a b) ?_
    rw [← Likeness.neighbourhoods_eq_whole_iff.mpr (rfl : n = n)]
    exact likeness_le_iff.mp (Nat.le_refl _) n ha n hb

/-- The likeness of two candidates is the greatest one of a neighbourhood of either, and zero where
one of them has none. A search finds it in any order of the pairs, also where it ends early and
whatever a memo knows, and so does the search that two candidates are scored with. It is the same in
both directions, lies between zero and the whole, is the whole exactly for candidates with a common
neighbourhood, and depends on the neighbourhoods alone and not on how often they were recorded. -/
theorem likeness_is_best_match (a b : Candidate) :
    IsGreatest (insert 0 (matchScores a b)) (a.likeness b) ∧
    (∀ ps, ps.Perm (neighbourhoodPairs a b) → bestLikeness 0 ps = a.likeness b ∧
      ∀ memo : LikenessMemo, memo.Reachable → (bestLikenessBy memo 0 ps).1 = a.likeness b) ∧
    (∀ memo : LikenessMemo, memo.Reachable → (likenessBy memo a b).1 = a.likeness b) ∧
    b.likeness a = a.likeness b ∧
    a.likeness b ∈ Set.Icc 0 Likeness.whole ∧
    (a.likeness b = Likeness.whole ↔
      ∃ n ∈ a.neighbourhoods.keys, n ∈ b.neighbourhoods.keys) ∧
    ∀ a' b' : Candidate, (∀ n, n ∈ a'.neighbourhoods.keys ↔ n ∈ a.neighbourhoods.keys) →
      (∀ n, n ∈ b'.neighbourhoods.keys ↔ n ∈ b.neighbourhoods.keys) →
      a'.likeness b' = a.likeness b := by
  have hsearch : ∀ ps, ps.Perm (neighbourhoodPairs a b) → bestLikeness 0 ps = a.likeness b :=
    fun ps hps => bestLikeness_congr fun _ => hps.mem_iff
  refine ⟨isGreatest_likeness a b, fun ps hps => ⟨hsearch ps hps, fun memo hmemo => ?_⟩,
    fun memo hmemo => likenessBy_fst hmemo.sound a b, likeness_comm a b,
    ⟨Nat.zero_le _, likeness_le_whole a b⟩, likeness_eq_whole_iff, fun a' b' => likeness_congr⟩
  rw [bestLikenessBy_fst hmemo.sound]
  exact hsearch ps hps

/-- A run at the start of the tree, and twice at its end. -/
def outerRun : Candidate :=
  { id := "t0", elements := [], depth := 0
    neighbourhoods := ⟨[(⟨[.start], [.symbol 0]⟩, 1), (⟨[.symbol 1], [.stop]⟩, 2)], by decide⟩ }

/-- The same places in the other order, the first of them met once more. -/
def outerRunAgain : Candidate :=
  { id := "t1", elements := [], depth := 0
    neighbourhoods := ⟨[(⟨[.symbol 1], [.stop]⟩, 1), (⟨[.start], [.symbol 0]⟩, 2)], by decide⟩ }

/-- A run inside of a node and one between two siblings. -/
def innerRun : Candidate :=
  { id := "t2", elements := [], depth := 1
    neighbourhoods :=
      ⟨[(⟨[.hidden], [.symbol 0]⟩, 1), (⟨[.symbol 1], [.symbol 2]⟩, 1)], by decide⟩ }

/-- The runs share a side and no neighbourhood, and their best pair is the first one. -/
theorem likeness_is_best_match_outerRun :
    (neighbourhoodPairs outerRun innerRun).reverse.Perm (neighbourhoodPairs outerRun innerRun) ∧
    (LikenessMemo.empty.sides .left [.start] [.hidden]).2.Reachable ∧
    (∀ n, n ∈ outerRunAgain.neighbourhoods.keys ↔ n ∈ outerRun.neighbourhoods.keys) ∧
    outerRun.likeness innerRun = 23 ∧ innerRun.likeness outerRun = 23 ∧
    bestLikeness 0 (neighbourhoodPairs outerRun innerRun).reverse = 23 ∧
    (bestLikenessBy (LikenessMemo.empty.sides .left [.start] [.hidden]).2 0
      (neighbourhoodPairs outerRun innerRun).reverse).1 = 23 ∧
    (likenessBy (LikenessMemo.empty.sides .left [.start] [.hidden]).2 outerRun innerRun).1 = 23 ∧
    outerRunAgain.likeness innerRun = 23 := by
  have hvalue : outerRun.likeness innerRun = 23 := by decide
  have hperm := (neighbourhoodPairs outerRun innerRun).reverse_perm
  have hmemo : (LikenessMemo.empty.sides .left [.start] [.hidden]).2.Reachable :=
    .sides .left [.start] [.hidden] .empty
  have hkeys : ∀ n, n ∈ outerRunAgain.neighbourhoods.keys ↔ n ∈ outerRun.neighbourhoods.keys :=
    fun n => show n ∈ outerRun.neighbourhoods.keys.reverse ↔ _ from List.mem_reverse
  obtain ⟨-, hsearch, hlookUp, hcomm, -, -, hsame⟩ := likeness_is_best_match outerRun innerRun
  obtain ⟨hplain, hknown⟩ := hsearch _ hperm
  refine ⟨hperm, hmemo, hkeys, hvalue, hcomm.trans hvalue, hplain.trans hvalue,
    (hknown _ hmemo).trans hvalue, (hlookUp _ hmemo).trans hvalue, ?_⟩
  exact (hsame outerRunAgain innerRun hkeys fun _ => Iff.rfl).trans hvalue

end Candidate
end GrammarInduction
