import Mathlib.Data.List.Infix

/-!
Facts that have nothing to do with grammars: what comes of computations that may fail, and how a
word begins that lacks a letter of its text.
-/
namespace GrammarInduction

section

variable {ε α β : Type}

lemma Except.bind_eq_ok_iff {x : Except ε α} {f : α → Except ε β} {b : β} :
    (x >>= f) = .ok b ↔ ∃ a, x = .ok a ∧ f a = .ok b := by
  cases x <;> simp [bind, Except.bind]

lemma Except.bind_eq_error_iff {x : Except ε α} {f : α → Except ε β} {e : ε} :
    (x >>= f) = .error e ↔ x = .error e ∨ ∃ a, x = .ok a ∧ f a = .error e := by
  cases x <;> simp [bind, Except.bind]

lemma Except.mapError_eq_ok_iff {ε' : Type} {f : ε → ε'} {x : Except ε α} {a : α} :
    x.mapError f = .ok a ↔ x = .ok a := by
  cases x <;> simp [Except.mapError]

end

/-- A word without a certain letter that a text begins with ends before that letter. -/
theorem prefix_of_prefix_append_cons {α : Type _} {q xs ys : List α} {x : α} (hx : x ∉ q)
    (h : q <+: xs ++ x :: ys) : q <+: xs := by
  by_cases hlen : q.length ≤ xs.length
  · exact List.prefix_of_prefix_length_le h (List.prefix_append xs _) hlen
  · have hle : (xs ++ [x]).length ≤ q.length := by
      rw [List.length_append, List.length_singleton]
      omega
    have hpre : xs ++ [x] <+: q :=
      List.prefix_of_prefix_length_le ⟨ys, by rw [List.append_assoc]; rfl⟩ h hle
    exact absurd (hpre.subset (by simp)) hx

lemma eq_nil_of_prefix_cons {α : Type _} {q ys : List α} {x : α} (hx : x ∉ q)
    (h : q <+: x :: ys) : q = [] := by
  have hnil : q <+: [] := prefix_of_prefix_append_cons hx h
  exact List.prefix_nil.mp hnil

end GrammarInduction
