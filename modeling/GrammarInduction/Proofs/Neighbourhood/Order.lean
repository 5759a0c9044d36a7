import Mathlib.Data.Sym.Sym2
import GrammarInduction.Neighbourhood.Memo

/-!
The order of sides, and the keys that it gives them. Two sides come in one order and not in the
other, so both orders lead to one key, and no other two sides have it.
-/
namespace GrammarInduction

section

variable {α : Type _} {key : α → Nat}

lemma swap_lexOrder (as bs : List α) : (lexOrder key as bs).swap = lexOrder key bs as := by
  induction as generalizing bs with
  | nil => cases bs <;> rfl
  | cons a as ih =>
    cases bs with
    | nil => rfl
    | cons b bs => rw [lexOrder, lexOrder, Ordering.swap_then, ih, Nat.compare_swap]

/-- Under a key that tells elements apart only equal lists stand at one place. -/
theorem lexOrder_eq_eq_iff (hkey : ∀ a b, key a = key b → a = b) {as bs : List α} :
    lexOrder key as bs = .eq ↔ as = bs := by
  induction as generalizing bs with
  | nil => cases bs <;> simp [lexOrder]
  | cons a as ih =>
    cases bs with
    | nil => simp [lexOrder]
    | cons b bs =>
      rw [lexOrder, Ordering.then_eq_eq, ih, Nat.compare_eq_eq, List.cons.injEq]
      exact and_congr_left fun _ => ⟨hkey a b, congrArg key⟩

end

namespace Side

lemma swap_order (a b : Side) : (a.order b).swap = b.order a := swap_lexOrder a b

lemma order_eq_eq_iff {a b : Side} : a.order b = .eq ↔ a = b :=
  lexOrder_eq_eq_iff fun _ _ => Neighbour.rank_injective

/-- Two sides that stand before each other are equal. -/
theorem eq_of_isLE_of_isLE {a b : Side} (hab : (a.order b).isLE) (hba : (b.order a).isLE) :
    a = b := by
  rw [← order_eq_eq_iff]
  rw [← swap_order] at hba
  cases h : a.order b <;> simp_all

lemma isLE_or_isLE (a b : Side) : (a.order b).isLE ∨ (b.order a).isLE := by
  rw [← swap_order a b]
  cases a.order b <;> simp

end Side

namespace SidePair

/-- Both orders of two sides have one key. -/
theorem of_comm (flank : Flank) (a b : Side) : of flank a b = of flank b a := by
  by_cases hab : (a.order b).isLE = true <;> by_cases hba : (b.order a).isLE = true
  · rw [Side.eq_of_isLE_of_isLE hab hba]
  · rw [of, of, if_pos hab, if_neg hba]
  · rw [of, of, if_neg hab, if_pos hba]
  · exact absurd (Side.isLE_or_isLE a b) (not_or.mpr ⟨hab, hba⟩)

/-- The two sides of a key are those that it was made from. -/
theorem sides_of (flank : Flank) (a b : Side) :
    s((of flank a b).smaller, (of flank a b).larger) = s(a, b) ∧ (of flank a b).flank = flank := by
  rw [of]
  split
  · exact ⟨rfl, rfl⟩
  · exact ⟨Sym2.eq_swap, rfl⟩

/-- Two sides have the key of two others exactly if they are the same two on the same flank. -/
theorem of_eq_of_iff {f f' : Flank} {a b c d : Side} :
    of f a b = of f' c d ↔ s(a, b) = s(c, d) ∧ f = f' := by
  constructor
  · intro h
    obtain ⟨hsides, hflank⟩ := sides_of f a b
    rw [h, (sides_of f' c d).1] at hsides
    rw [h, (sides_of f' c d).2] at hflank
    exact ⟨hsides.symm, hflank.symm⟩
  · rintro ⟨h, rfl⟩
    rcases Sym2.eq_iff.mp h with ⟨rfl, rfl⟩ | ⟨rfl, rfl⟩
    · rfl
    · exact of_comm f a b

end SidePair
end GrammarInduction
