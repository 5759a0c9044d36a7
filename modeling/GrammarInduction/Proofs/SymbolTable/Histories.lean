import Mathlib.Data.List.DropRight
import Mathlib.Data.Set.Function
import Mathlib.Order.Interval.Set.Defs
import Std.Data.HashMap
import GrammarInduction.Proofs.SymbolTable.Interning

/-!
The tables that histories of requests lead to. The labels interned since the last clearing are
numbered from zero on in the order of their first interning; a number is found from its label and
the label from its number. A table with a map from labels to numbers beside the list of its labels
keeps both in step, so it answers alike.
-/
namespace GrammarInduction
namespace SymbolTable

inductive Request
  | intern (label : String)
  | find (label : String)
  | resolve (id : SymbolId)
  | clear
  deriving DecidableEq, Repr

def Request.interned? : Request → Option String
  | .intern label => some label
  | .find _ | .resolve _ | .clear => none

/-- The table after a request. Questions leave it as it is. -/
def after (t : SymbolTable) : Request → SymbolTable
  | .intern label => (t.intern label).2
  | .find _ | .resolve _ => t
  | .clear => {}

def reachedBy (history : List Request) : SymbolTable := history.foldl after {}

/-- The labels that a history interned since its last clearing, as often as it did. -/
def internedBy (history : List Request) : List String :=
  (history.rtakeWhile (· ≠ .clear)).filterMap Request.interned?

lemma reachedBy_concat (history : List Request) (request : Request) :
    reachedBy (history ++ [request]) = (reachedBy history).after request :=
  List.foldl_concat after {} request history

lemma internedBy_concat {history : List Request} {request : Request} (h : request ≠ .clear) :
    internedBy (history ++ [request]) = internedBy history ++ request.interned?.toList := by
  rw [internedBy, List.rtakeWhile_concat_pos _ _ _ (by simpa using h), List.filterMap_append]
  cases request <;> rfl

lemma internedBy_clear (history : List Request) : internedBy (history ++ [.clear]) = [] := by
  rw [internedBy, List.rtakeWhile_concat_neg _ _ _ (by simp), List.filterMap_nil]

/-- A new label comes behind all others, which stay in their order. -/
theorem idxOf_concat_lt_iff {labels : List String} {label a b : String} (h : label ∉ labels)
    (ha : a ∈ labels ++ [label]) (hb : b ∈ labels ++ [label]) :
    (labels ++ [label]).idxOf a < (labels ++ [label]).idxOf b ↔
      a ∈ labels ∧ (b ∈ labels → labels.idxOf a < labels.idxOf b) := by
  have hlast : ∀ x ∈ labels ++ [label], x ∉ labels →
      (labels ++ [label]).idxOf x = labels.length := by
    intro x hx hnew
    obtain rfl : x = label := List.mem_singleton.mp ((List.mem_append.mp hx).resolve_left hnew)
    rw [List.idxOf_append_of_notMem h, List.idxOf_cons_self, Nat.add_zero]
  by_cases hal : a ∈ labels <;> by_cases hbl : b ∈ labels
  · simp [List.idxOf_append_of_mem, hal, hbl]
  · simp [List.idxOf_append_of_mem hal, hlast b hb hbl, hal, hbl, List.idxOf_lt_length_of_mem]
  · simp [List.idxOf_append_of_mem hbl, hlast a ha hal, hal, List.idxOf_le_length]
  · simp [hlast a ha hal, hlast b hb hbl, hal]

/-- A table has the labels of a list, once each and in the order in which they first come. -/
structure Follows (t : SymbolTable) (labels : List String) : Prop where
  distinct : t.Distinct
  mem : ∀ label, label ∈ t.labels ↔ label ∈ labels
  order : ∀ label ∈ labels, ∀ other ∈ labels,
    (t.numberOf label < t.numberOf other ↔ labels.idxOf label < labels.idxOf other)

section

variable {t : SymbolTable} {labels : List String} {label : String}

lemma numberOf_intern_of_not_mem (h : label ∉ t.labels) :
    (t.intern label).2.numberOf label = t.size := by rw [← fst_intern, intern_of_not_mem h]

/-- A label that is known joins the list, and the table stays. -/
theorem Follows.concat_of_mem (h : t.Follows labels) (hl : label ∈ labels) :
    t.Follows (labels ++ [label]) where
  distinct := h.distinct
  mem other := by
    rw [h.mem, List.mem_append, List.mem_singleton]
    exact ⟨.inl, fun ho => ho.elim id fun he => he ▸ hl⟩
  order a ha b hb := by
    have hold : ∀ x ∈ labels ++ [label], x ∈ labels := fun x hx =>
      (List.mem_append.mp hx).elim id fun he => List.mem_singleton.mp he ▸ hl
    rw [h.order a (hold a ha) b (hold b hb), List.idxOf_append_of_mem (hold a ha),
      List.idxOf_append_of_mem (hold b hb)]

/-- A label that is new comes last in the list and in the table. -/
theorem Follows.concat_of_not_mem (h : t.Follows labels) (hl : label ∉ labels) :
    (t.intern label).2.Follows (labels ++ [label]) := by
  have hnew : label ∉ t.labels := (h.mem label).not.mpr hl
  refine ⟨h.distinct.intern label, fun other => ?_, fun a ha b hb => ?_⟩
  · rw [intern_of_not_mem hnew, List.mem_append, List.mem_append, h.mem]
  · rw [numberOf, numberOf, intern_of_not_mem hnew, idxOf_concat_lt_iff hl ha hb,
      idxOf_concat_lt_iff hnew, h.mem, h.mem]
    · exact and_congr_right fun ha => forall_congr' fun hb => h.order a ha b hb
    · simpa [h.mem] using ha
    · simpa [h.mem] using hb

/-- Interning a label adds it to the list. -/
theorem Follows.intern (h : t.Follows labels) (label : String) :
    (t.intern label).2.Follows (labels ++ [label]) := by
  by_cases hl : label ∈ labels
  · rw [intern_of_mem ((h.mem label).mpr hl)]
    exact h.concat_of_mem hl
  · exact h.concat_of_not_mem hl

lemma follows_empty : Follows {} [] where
  distinct := distinct_empty
  mem _ := Iff.rfl
  order _ h := nomatch h

lemma follows_reachedBy (history : List Request) :
    (reachedBy history).Follows (internedBy history) := by
  induction history using List.reverseRecOn with
  | nil => exact follows_empty
  | append_singleton history request ih =>
    rw [reachedBy_concat]
    cases request with
    | intern label =>
      rw [internedBy_concat (by simp)]
      exact ih.intern label
    | find label | resolve id =>
      rw [internedBy_concat (by simp), Request.interned?, Option.toList_none, List.append_nil]
      exact ih
    | clear =>
      rw [internedBy_clear]
      exact follows_empty

lemma find?_of_mem (h : label ∈ t.labels) : t.find? label = some (t.numberOf label) := if_pos h

/-- A new label is found under the next number, and all others under the numbers they had. -/
theorem find?_intern_of_not_mem (h : label ∉ t.labels) (other : String) :
    (t.intern label).2.find? other = if other = label then some t.size else t.find? other := by
  by_cases he : other = label
  · rw [if_pos he, he, find?_of_mem (t.mem_intern label), numberOf_intern_of_not_mem h]
  · rw [if_neg he]
    by_cases ho : other ∈ t.labels
    · rw [find?_of_mem ((t.within_intern label).mem ho), find?_of_mem ho,
        (t.within_intern label).numberOf_eq ho]
    · have ho' : other ∉ (t.intern label).2.labels := by
        rw [intern_of_not_mem h]
        simp [ho, he]
      rw [(find?_eq_none_iff _ _).mpr ho', (find?_eq_none_iff _ _).mpr ho]

/-- In a table of distinct labels every position is the number of the label there. -/
theorem Distinct.numberOf_of_resolve (ht : t.Distinct) {i : SymbolId}
    (h : t.resolve i = .ok label) : label ∈ t.labels ∧ t.numberOf label = i := by
  have hmem : label ∈ t.labels := List.mem_of_getElem? (resolve_eq_ok_iff.mp h)
  exact ⟨hmem, ht.resolve_inj (resolve_numberOf hmem) h⟩

lemma exists_resolve {i : SymbolId} (h : i < t.size) : ∃ label, t.resolve i = .ok label :=
  ⟨t.labels[i], resolve_eq_ok_iff.mpr (List.getElem?_eq_getElem h)⟩

/-- The labels of a table and the numbers below its size are in one-to-one correspondence. -/
theorem Distinct.bijOn_numberOf (ht : t.Distinct) :
    Set.BijOn t.numberOf {label | label ∈ t.labels} (Set.Iio t.size) := by
  refine ⟨fun label hl => List.idxOf_lt_length_of_mem hl, fun a ha b hb hab => ?_, fun i hi => ?_⟩
  · have hra := resolve_numberOf ha
    rw [hab, resolve_numberOf hb] at hra
    exact (Except.ok.inj hra).symm
  · obtain ⟨label, hl⟩ := exists_resolve hi
    exact ⟨label, ht.numberOf_of_resolve hl⟩

end
end SymbolTable

/-- A table with an index: numbers are found in a map, labels in an array. -/
structure IndexedTable where
  numbers : Std.HashMap String SymbolId := {}
  labels : Array String := #[]

namespace IndexedTable

/-- The number of a label; a new label is entered in the map and in the array. -/
def intern (x : IndexedTable) (label : String) : SymbolId × IndexedTable :=
  match x.numbers[label]? with
  | some i => (i, x)
  | none => (x.labels.size, ⟨x.numbers.insert label x.labels.size, x.labels.push label⟩)

def after (x : IndexedTable) : SymbolTable.Request → IndexedTable
  | .intern label => (x.intern label).2
  | .find _ | .resolve _ => x
  | .clear => {}

def reachedBy (history : List SymbolTable.Request) : IndexedTable := history.foldl after {}

/-- The map finds what a table finds by searching, and the array has the labels of the table. -/
structure InStep (x : IndexedTable) (t : SymbolTable) : Prop where
  numbers : ∀ label, x.numbers[label]? = t.find? label
  labels : x.labels.toList = t.labels

variable {x : IndexedTable} {t : SymbolTable}

lemma inStep_empty : InStep {} {} where
  numbers label := by simp [SymbolTable.find?]
  labels := rfl

/-- Interning gives the same number and keeps the map and the array in step. -/
theorem InStep.intern (h : x.InStep t) (label : String) :
    (x.intern label).1 = (t.intern label).1 ∧ (x.intern label).2.InStep (t.intern label).2 := by
  have hnumber := h.numbers label
  by_cases hl : label ∈ t.labels
  · rw [SymbolTable.find?, if_pos hl] at hnumber
    rw [SymbolTable.intern_of_mem hl, IndexedTable.intern, hnumber]
    exact ⟨rfl, h⟩
  · have hsize : x.labels.size = t.size := by rw [← Array.length_toList, h.labels, SymbolTable.size]
    rw [SymbolTable.find?, if_neg hl] at hnumber
    rw [SymbolTable.intern_of_not_mem hl, IndexedTable.intern, hnumber]
    refine ⟨hsize, fun other => ?_, ?_⟩
    · have hnew := SymbolTable.find?_intern_of_not_mem hl other
      rw [SymbolTable.intern_of_not_mem hl] at hnew
      rw [hnew, Std.HashMap.getElem?_insert, hsize, h.numbers]
      by_cases he : other = label
      · simp [he]
      · simp [he, Ne.symm he]
    · rw [Array.toList_push, h.labels]

lemma inStep_reachedBy (history : List SymbolTable.Request) :
    (reachedBy history).InStep (SymbolTable.reachedBy history) := by
  induction history using List.reverseRecOn with
  | nil => exact inStep_empty
  | append_singleton history request ih =>
    rw [SymbolTable.reachedBy_concat, reachedBy, List.foldl_concat]
    cases request with
    | intern label => exact (ih.intern label).2
    | find label | resolve id => exact ih
    | clear => exact inStep_empty

end IndexedTable

namespace SymbolTable

/-- A table numbers the labels of a list from zero on in the order in which they first come. It
finds the number of each of them and of no other label, and resolves the number to the label. -/
structure Numbers (t : SymbolTable) (labels : List String) : Prop where
  bijOn : Set.BijOn t.numberOf {label | label ∈ labels} (Set.Iio t.size)
  order : ∀ label ∈ labels, ∀ other ∈ labels,
    (t.numberOf label < t.numberOf other ↔ labels.idxOf label < labels.idxOf other)
  unknown : ∀ label, t.find? label = none ↔ label ∉ labels
  resolve_find : ∀ label ∈ labels,
    t.find? label = some (t.numberOf label) ∧ t.resolve (t.numberOf label) = .ok label
  find_resolve : ∀ i < t.size, ∃ label ∈ labels, t.resolve i = .ok label ∧ t.find? label = some i

lemma Follows.numbers {t : SymbolTable} {labels : List String} (h : t.Follows labels) :
    t.Numbers labels where
  bijOn := by
    have hlabels : {label | label ∈ labels} = {label | label ∈ t.labels} :=
      Set.ext fun label => (h.mem label).symm
    rw [hlabels]
    exact h.distinct.bijOn_numberOf
  order := h.order
  unknown label := (t.find?_eq_none_iff label).trans (h.mem label).not
  resolve_find label hl :=
    have hmem := (h.mem label).mpr hl
    ⟨find?_of_mem hmem, resolve_numberOf hmem⟩
  find_resolve i hi := by
    obtain ⟨label, hl⟩ := exists_resolve hi
    obtain ⟨hmem, hnumber⟩ := h.distinct.numberOf_of_resolve hl
    exact ⟨label, (h.mem label).mp hmem, hl, hnumber ▸ find?_of_mem hmem⟩

/-- A table has one label more than another one, under the next number, and all else as it was. -/
structure Adds (t t' : SymbolTable) (label : String) : Prop where
  size : t'.size = t.size + 1
  find?_label : t'.find? label = some t.size
  resolve_size : t'.resolve t.size = .ok label
  find?_other : ∀ other ≠ label, t'.find? other = t.find? other
  resolve_lt : ∀ i < t.size, t'.resolve i = t.resolve i

lemma adds_intern {t : SymbolTable} {label : String} (h : label ∉ t.labels) :
    t.Adds (t.intern label).2 label where
  size := by
    rw [intern_of_not_mem h]
    exact List.length_append
  find?_label := (find?_intern_of_not_mem h label).trans (if_pos rfl)
  resolve_size := numberOf_intern_of_not_mem h ▸ resolve_numberOf (t.mem_intern label)
  find?_other other ho := (find?_intern_of_not_mem h other).trans (if_neg ho)
  resolve_lt i hi := by
    obtain ⟨other, ho⟩ := exists_resolve hi
    rw [ho, (t.within_intern label).resolve ho]

/-- After every history of requests a table numbers the labels that were interned since the last
clearing. Interning a known label changes nothing; a new one gets the next number, and all earlier
numbers and labels stay as they were. A map of numbers and an array of labels, kept by the same
requests, are in step with the table and give the same numbers. -/
theorem numbers_reachedBy (history : List Request) :
    (reachedBy history).Numbers (internedBy history) ∧
    (∀ label i, (reachedBy history).find? label = some i →
      (reachedBy history).intern label = (i, reachedBy history)) ∧
    (∀ label, (reachedBy history).find? label = none →
      ((reachedBy history).intern label).1 = (reachedBy history).size ∧
      (reachedBy history).Adds ((reachedBy history).intern label).2 label) ∧
    (IndexedTable.reachedBy history).InStep (reachedBy history) ∧
    ∀ label, ((IndexedTable.reachedBy history).intern label).1 =
      ((reachedBy history).intern label).1 := by
  have hstep := IndexedTable.inStep_reachedBy history
  refine ⟨(follows_reachedBy history).numbers, fun label i h => ?_, fun label h => ?_, hstep,
    fun label => (hstep.intern label).1⟩
  · rw [intern, h]
  · have hnew := (find?_eq_none_iff _ _).mp h
    exact ⟨by rw [intern_of_not_mem hnew], adds_intern hnew⟩

/-- A history with a clearing, after which one label comes twice. -/
def relabelled : List Request :=
  [.intern "a", .clear, .intern "b", .find "a", .intern "a", .intern "b"]

/-- Clearing starts the numbers anew, a label that comes again keeps its own, and the next one goes
to a new label. -/
theorem numbers_reachedBy_relabelled :
    internedBy relabelled = ["b", "a", "b"] ∧ (reachedBy relabelled).Numbers ["b", "a", "b"] ∧
      (reachedBy relabelled).find? "b" = some 0 ∧ (reachedBy relabelled).find? "c" = none ∧
      (reachedBy relabelled).intern "b" = (0, reachedBy relabelled) ∧
      ((reachedBy relabelled).intern "c").1 = 2 ∧
      (reachedBy relabelled).Adds ((reachedBy relabelled).intern "c").2 "c" := by
  have hlabels : internedBy relabelled = ["b", "a", "b"] := by decide
  have hknown : (reachedBy relabelled).find? "b" = some 0 := by decide
  have hnew : (reachedBy relabelled).find? "c" = none := by decide
  obtain ⟨hnumbers, hsame, hadds, -, -⟩ := numbers_reachedBy relabelled
  obtain ⟨hnumber, hadd⟩ := hadds "c" hnew
  exact ⟨hlabels, hlabels ▸ hnumbers, hknown, hnew, hsame "b" 0 hknown, hnumber, hadd⟩

end SymbolTable
end GrammarInduction
