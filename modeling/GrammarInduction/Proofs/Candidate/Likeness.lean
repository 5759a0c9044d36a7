import GrammarInduction.Candidate.Basic
import GrammarInduction.Proofs.Neighbourhood.Weights

/-!
The memos that can arise. Look-ups and forgetting lead to memos in which everything known is the
likeness of its sides, so that a look-up of candidates answers with their likeness.
-/
namespace GrammarInduction

/-- The memos that arise from the empty one by look-ups. Forgetting leads back to the empty
memo. -/
inductive LikenessMemo.Reachable : LikenessMemo → Prop
  | empty : Reachable .empty
  | sides {m : LikenessMemo} (flank : Flank) (a b : Side) (h : Reachable m) :
      Reachable (m.sides flank a b).2

namespace LikenessMemo.Reachable

lemma sound {m : LikenessMemo} (h : m.Reachable) : m.Sound := by
  induction h with
  | empty => exact sound_empty
  | sides flank a b _ ih => exact sound_sides ih flank a b

lemma neighbourhoods {m : LikenessMemo} (h : m.Reachable) (a b : Neighbourhood) :
    (m.neighbourhoods a b).2.Reachable := by
  by_cases he : a = b
  · subst he
    rw [neighbourhoods_self]
    exact h
  · rw [neighbourhoods_of_ne he]
    exact (h.sides .left a.left b.left).sides .right a.right b.right

lemma bestLikenessBy {m : LikenessMemo} (h : m.Reachable) (best : Nat)
    (ps : List (Neighbourhood × Neighbourhood)) :
    (Candidate.bestLikenessBy m best ps).2.Reachable := by
  induction ps generalizing m best with
  | nil => exact h
  | cons p ps ih =>
    simp only [Candidate.bestLikenessBy]
    split
    · exact h.neighbourhoods p.1 p.2
    · exact ih (h.neighbourhoods p.1 p.2) _

lemma likenessBy {m : LikenessMemo} (h : m.Reachable) (a b : Candidate) :
    (Candidate.likenessBy m a b).2.Reachable := h.bestLikenessBy 0 _

end LikenessMemo.Reachable

namespace Likeness

lemma neighbourhoods_le_whole (a b : Neighbourhood) : neighbourhoods a b ≤ whole := by
  rw [neighbourhoods]
  split
  · exact Nat.le_refl _
  · exact Nat.add_le_add (sides_le_half .left _ _) (sides_le_half .right _ _)

end Likeness

namespace Candidate

/-- The search for the greatest likeness misses nothing when it ends early. -/
theorem bestLikeness_le_iff {n best : Nat} {ps : List (Neighbourhood × Neighbourhood)}
    (hbest : best ≤ Likeness.whole) :
    bestLikeness best ps ≤ n ↔
      best ≤ n ∧ ∀ p ∈ ps, Likeness.neighbourhoods p.1 p.2 ≤ n := by
  induction ps generalizing best with
  | nil => simp [bestLikeness]
  | cons p ps ih =>
    have hp := Likeness.neighbourhoods_le_whole p.1 p.2
    rw [bestLikeness, List.forall_mem_cons, ← and_assoc, ← Nat.max_le]
    split
    · rename_i hwhole
      refine ⟨fun h => ⟨h, fun q hq => ?_⟩, fun h => h.1⟩
      exact Nat.le_trans (Likeness.neighbourhoods_le_whole q.1 q.2) (Nat.le_trans hwhole h)
    · exact ih (Nat.max_le.mpr ⟨hbest, hp⟩)

/-- The likeness of candidates bounds that of their neighbourhoods, and no less does. -/
theorem likeness_le_iff {n : Nat} {a b : Candidate} :
    a.likeness b ≤ n ↔ ∀ x ∈ a.neighbourhoods.keys, ∀ y ∈ b.neighbourhoods.keys,
      Likeness.neighbourhoods x y ≤ n := by
  rw [likeness, bestLikeness_le_iff (Nat.zero_le _)]
  constructor
  · rintro ⟨-, h⟩ x hx y hy
    exact h (x, y) (List.mem_flatMap.mpr ⟨x, hx, List.mem_map.mpr ⟨y, hy, rfl⟩⟩)
  · intro h
    refine ⟨Nat.zero_le n, fun p hp => ?_⟩
    obtain ⟨x, hx, hp⟩ := List.mem_flatMap.mp hp
    obtain ⟨y, hy, rfl⟩ := List.mem_map.mp hp
    exact h x hx y hy

end Candidate
end GrammarInduction
