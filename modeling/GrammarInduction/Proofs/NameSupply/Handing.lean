import Mathlib.Data.List.Nodup
import Mathlib.Data.List.Range
import GrammarInduction.Proofs.NameSupply.Decoding

/-!
Handing out names. The names that a supply hands out have the numbers from its counter on, up to
the greatest word, which is then handed out again and again. So they are distinct exactly as long
as the counter does not have to pass the greatest word.
-/
namespace GrammarInduction
namespace NameSupply

/-- The names that lead from one supply to another, in the order in which they are handed out. -/
inductive HandsOut : NameSupply → List String → NameSupply → Prop
  | nil (s : NameSupply) : HandsOut s [] s
  | cons {s t : NameSupply} {names : List String} (h : HandsOut s.fresh.2 names t) :
      HandsOut s (s.fresh.1 :: names) t

variable {s t u : NameSupply} {names more : List String}

lemma handsOut_fresh (s : NameSupply) : s.HandsOut [s.fresh.1] s.fresh.2 := .cons (.nil _)

lemma HandsOut.append (h : s.HandsOut names t) (h' : t.HandsOut more u) :
    s.HandsOut (names ++ more) u := by
  induction h with
  | nil => exact h'
  | cons _ ih => exact .cons (ih h')

/-- Taking names hands them out. -/
theorem handsOut_take (s : NameSupply) (k : Nat) :
    s.HandsOut ((s.take k).1.map Prod.fst) (s.take k).2 := by
  induction k generalizing s with
  | zero => exact .nil s
  | succ k ih => exact .cons (ih s.fresh.2)

lemma length_take (s : NameSupply) (k : Nat) : ((s.take k).1.map Prod.fst).length = k := by
  induction k generalizing s with
  | zero => rfl
  | succ k ih => simpa [take] using ih s.fresh.2

/-- Names that are handed out are the next ones of the supply. -/
theorem HandsOut.eq_take (h : s.HandsOut names t) :
    names = (s.take names.length).1.map Prod.fst ∧ t = (s.take names.length).2 := by
  induction h with
  | nil => exact ⟨rfl, rfl⟩
  | cons _ ih => exact ⟨congrArg _ ih.1, ih.2⟩

lemma HandsOut.stem_eq (h : s.HandsOut names t) : t.stem = s.stem := by
  induction h with
  | nil => rfl
  | cons _ ih => exact ih

/-- Each name advances the counter by one, up to the greatest word. -/
theorem HandsOut.next_eq (h : s.HandsOut names t) (hs : s.next ≤ wordMax) :
    t.next = min (s.next + names.length) wordMax := by
  induction h with
  | nil => simpa using (Nat.min_eq_left hs).symm
  | @cons s t names _ ih =>
    have hnext : s.fresh.2.next ≤ wordMax := Nat.min_le_right _ _
    rw [ih hnext]
    simp only [fresh, advance, List.length_cons]
    omega

/-- The numbers of the names count on from the counter, up to the greatest word. -/
theorem HandsOut.eq_map (h : s.HandsOut names t) (hs : s.next ≤ wordMax) :
    names = (List.range names.length).map fun i => s.nameAt (min (s.next + i) wordMax) := by
  induction h with
  | nil => rfl
  | @cons s t names _ ih =>
    have hnext : s.fresh.2.next ≤ wordMax := Nat.min_le_right _ _
    rw [List.length_cons, List.range_succ_eq_map, List.map_cons, List.map_map]
    apply congrArg₂ List.cons
    · simp [fresh, Nat.min_eq_left hs]
    · refine (ih hnext).trans (List.map_congr_left fun i _ => ?_)
      have hmin : min (min (s.next + 1) wordMax + i) wordMax = min (s.next + (i + 1)) wordMax := by
        omega
      simp [fresh, advance, nameAt, hmin]

/-- Names that are handed out are distinct as long as their numbers are words. -/
theorem HandsOut.nodup_iff (h : s.HandsOut names t) (hs : s.next ≤ wordMax) :
    names.Nodup ↔ s.next + names.length ≤ wordMax + 1 := by
  rw [h.eq_map hs, List.length_map, List.length_range]
  generalize names.length = k
  constructor
  · intro hnodup
    by_contra hover
    -- Past the greatest word the last two names carry its number.
    have hlast : s.nameAt (min (s.next + (k - 2)) wordMax) =
        s.nameAt (min (s.next + (k - 1)) wordMax) := by
      congr 1
      omega
    have := List.inj_on_of_nodup_map hnodup (List.mem_range.mpr (by omega))
      (List.mem_range.mpr (by omega)) hlast
    omega
  · intro hle
    refine List.Nodup.map_on (fun i hi j hj hij => ?_) List.nodup_range
    rw [List.mem_range] at hi hj
    have := nameAt_injective hij
    omega

end NameSupply
end GrammarInduction
