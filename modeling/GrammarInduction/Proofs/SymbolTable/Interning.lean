import Mathlib.Data.List.Forall2
import Mathlib.Data.List.Nodup
import GrammarInduction.SymbolTable

/-!
What interning does to a table. Every label keeps its number while the table grows, different
labels have different numbers, and the numbers that interning gives are those of the labels and
resolve to them.
-/
namespace GrammarInduction
namespace SymbolTable

/-- A table came from another one by interning. -/
def Within (t t' : SymbolTable) : Prop := t.labels <+: t'.labels

lemma Within.refl (t : SymbolTable) : t.Within t := List.prefix_rfl

lemma Within.trans {t t' t'' : SymbolTable} (h : t.Within t') (h' : t'.Within t'') :
    t.Within t'' := List.IsPrefix.trans h h'

def Distinct (t : SymbolTable) : Prop := t.labels.Nodup

lemma distinct_empty : Distinct {} := List.nodup_nil

lemma resolve_eq_ok_iff {t : SymbolTable} {i : SymbolId} {label : String} :
    t.resolve i = .ok label ↔ t.labels[i]? = some label := by
  rw [resolve]
  cases h : t.labels[i]? <;> simp

/-- Interning keeps what numbers resolve to. -/
theorem Within.resolve {t t' : SymbolTable} (h : t.Within t') {i : SymbolId} {label : String}
    (hi : t.resolve i = .ok label) : t'.resolve i = .ok label := by
  rw [resolve_eq_ok_iff] at hi ⊢
  obtain ⟨hlt, hget⟩ := List.getElem?_eq_some_iff.mp hi
  obtain ⟨rest, hrest⟩ := h
  rw [← hrest, List.getElem?_append_left hlt, hi]

lemma Within.mem {t t' : SymbolTable} (h : t.Within t') {label : String}
    (hl : label ∈ t.labels) : label ∈ t'.labels := h.subset hl

def numberOf (t : SymbolTable) (label : String) : SymbolId := t.labels.idxOf label

lemma resolve_numberOf {t : SymbolTable} {label : String} (h : label ∈ t.labels) :
    t.resolve (t.numberOf label) = .ok label := resolve_eq_ok_iff.mpr (List.getElem?_idxOf h)

/-- A known label keeps its number. -/
theorem Within.numberOf_eq {t t' : SymbolTable} (h : t.Within t') {label : String}
    (hl : label ∈ t.labels) : t'.numberOf label = t.numberOf label := by
  obtain ⟨rest, hrest⟩ := h
  rw [numberOf, numberOf, ← hrest, List.idxOf_append_of_mem hl]

/-- In a table of distinct labels a label has one number. -/
theorem Distinct.resolve_inj {t : SymbolTable} (ht : t.Distinct) {i j : SymbolId} {label : String}
    (hi : t.resolve i = .ok label) (hj : t.resolve j = .ok label) : i = j := by
  rw [resolve_eq_ok_iff, List.getElem?_eq_some_iff] at hi hj
  obtain ⟨hi, hli⟩ := hi
  obtain ⟨hj, hlj⟩ := hj
  exact (List.Nodup.getElem_inj_iff ht).mp (hli.trans hlj.symm)

section

variable (t : SymbolTable) (label : String)

lemma within_intern : t.Within (t.intern label).2 := by
  by_cases h : label ∈ t.labels
  · rw [intern_of_mem h]
    exact .refl t
  · rw [intern_of_not_mem h]
    exact List.prefix_append t.labels [label]

lemma mem_intern : label ∈ (t.intern label).2.labels := by
  by_cases h : label ∈ t.labels
  · rw [intern_of_mem h]
    exact h
  · rw [intern_of_not_mem h]
    exact List.mem_concat_self

lemma fst_intern : (t.intern label).1 = (t.intern label).2.numberOf label := by
  by_cases h : label ∈ t.labels
  · rw [intern_of_mem h]
    rfl
  · rw [intern_of_not_mem h, numberOf, List.idxOf_append_of_notMem h, List.idxOf_cons_self]
    rfl

lemma Distinct.intern {t : SymbolTable} (ht : t.Distinct) : (t.intern label).2.Distinct := by
  by_cases h : label ∈ t.labels
  · rw [intern_of_mem h]
    exact ht
  · rw [intern_of_not_mem h]
    exact ht.append (List.nodup_singleton label) (by simpa using h)

end

lemma within_internAll (t : SymbolTable) (labels : List String) :
    t.Within (t.internAll labels).2 := by
  induction labels generalizing t with
  | nil => exact .refl t
  | cons label rest ih => exact (t.within_intern label).trans (ih (t.intern label).2)

lemma Distinct.internAll {t : SymbolTable} (ht : t.Distinct) (labels : List String) :
    (t.internAll labels).2.Distinct := by
  induction labels generalizing t with
  | nil => exact ht
  | cons label rest ih => exact ih (ht.intern label)

lemma mem_internAll (t : SymbolTable) {labels : List String} {label : String}
    (h : label ∈ labels) : label ∈ (t.internAll labels).2.labels := by
  induction labels generalizing t with
  | nil => cases h
  | cons l rest ih =>
    rcases List.mem_cons.mp h with rfl | h
    · exact (within_internAll _ rest).mem (t.mem_intern label)
    · exact ih _ h

/-- Interning gives the numbers of the labels. -/
theorem fst_internAll (t : SymbolTable) (labels : List String) :
    (t.internAll labels).1 = labels.map (t.internAll labels).2.numberOf := by
  induction labels generalizing t with
  | nil => rfl
  | cons l rest ih =>
    have hl : (t.intern l).1 = ((t.intern l).2.internAll rest).2.numberOf l := by
      rw [(within_internAll _ rest).numberOf_eq (t.mem_intern l), fst_intern]
    exact congrArg₂ List.cons hl (ih (t.intern l).2)

/-- The numbers of interned labels resolve to them. -/
theorem resolve_internAll (t : SymbolTable) (labels : List String) :
    List.Forall₂ (fun i label => (t.internAll labels).2.resolve i = .ok label)
      (t.internAll labels).1 labels := by
  rw [fst_internAll, List.forall₂_map_left_iff, List.forall₂_same]
  exact fun label h => resolve_numberOf (t.mem_internAll h)

end SymbolTable
end GrammarInduction
