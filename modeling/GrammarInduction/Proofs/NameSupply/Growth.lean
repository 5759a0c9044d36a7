import Mathlib.Tactic.Lemma
import GrammarInduction.Forest.Seed

/-!
Names are only ever handed out. Whatever is made with a supply keeps its stem, and below the limit
its counter never goes back.
-/
namespace GrammarInduction
namespace NameSupply

/-- A supply comes from another one by handing out names. -/
def LeadsTo (a b : NameSupply) : Prop := b.stem = a.stem ∧ (b.next < wordMax → a.next ≤ b.next)

lemma LeadsTo.refl (a : NameSupply) : a.LeadsTo a := ⟨rfl, fun _ => Nat.le_refl _⟩

lemma LeadsTo.trans {a b c : NameSupply} (hab : a.LeadsTo b) (hbc : b.LeadsTo c) : a.LeadsTo c :=
  ⟨hbc.1.trans hab.1, fun hc => by
    have hb := hbc.2 hc
    have ha := hab.2 (by omega)
    omega⟩

/-- A name that does not reach the limit leaves a counter that grew by one. -/
theorem next_fresh_of_lt {s : NameSupply} (h : s.fresh.2.next < wordMax) :
    s.next < wordMax ∧ s.fresh.2.next = s.next + 1 := by
  simp only [fresh, advance] at h ⊢
  omega

lemma leadsTo_fresh (s : NameSupply) : s.LeadsTo s.fresh.2 :=
  ⟨rfl, fun h => by rw [(next_fresh_of_lt h).2]; exact Nat.le_succ _⟩

/-- Names keep their numbers. -/
theorem LeadsTo.nameAt_eq {a b : NameSupply} (h : a.LeadsTo b) : b.nameAt = a.nameAt := by
  funext i
  rw [nameAt, nameAt, h.1]

lemma LeadsTo.lt_of_lt {a b : NameSupply} (h : a.LeadsTo b) (hb : b.next < wordMax) :
    a.next < wordMax := Nat.lt_of_le_of_lt (h.2 hb) hb

end NameSupply

open NameSupply

lemma leadsTo_nameTokens (names : NameSupply) (tokens : List String) :
    names.LeadsTo (nameTokens names tokens).2 := by
  induction tokens generalizing names with
  | nil => exact .refl names
  | cons token rest ih => exact (leadsTo_fresh names).trans (ih names.fresh.2)

namespace OpenSegments

lemma leadsTo_read (s : OpenSegments) (names : NameSupply) (token : String) (leaf : Node) :
    names.LeadsTo (s.read names token leaf).2 := by
  rw [read]
  split
  · exact .refl names
  · split
    · split
      · exact .refl names
      · exact leadsTo_fresh names
    · exact .refl names

lemma leadsTo_finish (current : List Node) (names : NameSupply) (outer : List (List Node)) :
    names.LeadsTo (finish current names outer).2 := by
  induction outer generalizing current names with
  | nil => exact .refl names
  | cons parent outer ih => exact (leadsTo_fresh names).trans (ih _ names.fresh.2)

end OpenSegments

lemma leadsTo_readTokens (classes : List (String × String)) (s : OpenSegments)
    (names : NameSupply) (tokens : List String) :
    names.LeadsTo (readTokens classes s names tokens).2 := by
  induction tokens generalizing s names with
  | nil => exact .refl names
  | cons token rest ih =>
    exact (s.leadsTo_read names token (classNode classes token)).trans (ih _ _)

lemma leadsTo_seedTree (classes : List (String × String)) (names : NameSupply)
    (tokens : List String) : names.LeadsTo (seedTree classes names tokens).2 :=
  (leadsTo_readTokens classes {} names tokens).trans (OpenSegments.leadsTo_finish _ _ _)

lemma leadsTo_seedTrees (classes : List (String × String)) (names : NameSupply)
    (examples : List (List String)) : names.LeadsTo (seedTrees classes names examples).2 := by
  induction examples generalizing names with
  | nil => exact .refl names
  | cons tokens rest ih => exact (leadsTo_seedTree classes names tokens).trans (ih _)

lemma leadsTo_seedForest (names : NameSupply) (examples : List (List String)) :
    names.LeadsTo (seedForest names examples).2 :=
  (leadsTo_nameTokens names _).trans (leadsTo_seedTrees _ _ _)

end GrammarInduction
