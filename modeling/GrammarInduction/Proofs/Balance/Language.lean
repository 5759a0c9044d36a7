import Mathlib.Data.List.Basic
import GrammarInduction.Balance

/-!
The language of balanced texts. What stands in quotations is passed over, and the brackets in the
rest have to match as a grammar says; the reader with its stack of open brackets accepts just that.
-/
namespace GrammarInduction
namespace Balance

/-- The opening brackets with their closing brackets. -/
def brackets : List (Char × Char) := [('(', ')'), ('[', ']'), ('{', '}')]

def IsPlain (c : Char) : Prop := isQuote c = false ∧ ∀ p ∈ brackets, c ≠ p.1 ∧ c ≠ p.2

/-- The language of matching brackets with plain characters in between. -/
inductive Matched : List Char → Prop
  | empty : Matched []
  | plain {a b : List Char} {c : Char} (hc : IsPlain c) (ha : Matched a) (hb : Matched b) :
      Matched (a ++ c :: b)
  | pair {a b d : List Char} {o c : Char} (hp : (o, c) ∈ brackets) (ha : Matched a)
      (hb : Matched b) (hd : Matched d) : Matched (a ++ o :: b ++ c :: d)

/-- What a text leaves outside its quoted segments. A segment runs from a quotation mark to the
next one of its kind, or to the end of the text. -/
inductive Unquoted : List Char → List Char → Prop
  | nil : Unquoted [] []
  | char {c : Char} {cs rest : List Char} (hc : isQuote c = false) (h : Unquoted cs rest) :
      Unquoted (c :: cs) (c :: rest)
  | closed {q : Char} {inside cs rest : List Char} (hq : isQuote q = true) (hinside : q ∉ inside)
      (h : Unquoted cs rest) : Unquoted (q :: inside ++ q :: cs) rest
  | unclosed {q : Char} {inside : List Char} (hq : isQuote q = true) (hinside : q ∉ inside) :
      Unquoted (q :: inside) []

/-- The characters outside quotations, where the text begins inside or outside one. -/
def outside : Option Char → List Char → List Char
  | _, [] => []
  | some q, c :: cs => outside (if c = q then none else some q) cs
  | none, c :: cs => if isQuote c then outside (some c) cs else c :: outside none cs

lemma outside_closed {q : Char} {inside : List Char} (h : q ∉ inside) (cs : List Char) :
    outside (some q) (inside ++ q :: cs) = outside none cs := by
  induction inside with
  | nil => rw [List.nil_append, outside, if_pos rfl]
  | cons c inside ih =>
    obtain ⟨hc, hinside⟩ := not_or.mp (List.mem_cons.not.mp h)
    rw [List.cons_append, outside, if_neg (Ne.symm hc), ih hinside]

lemma outside_unclosed {q : Char} {inside : List Char} (h : q ∉ inside) :
    outside (some q) inside = [] := by
  induction inside with
  | nil => rfl
  | cons c inside ih =>
    obtain ⟨hc, hinside⟩ := not_or.mp (List.mem_cons.not.mp h)
    rw [outside, if_neg (Ne.symm hc), ih hinside]

/-- There is one way to part a text from its quotations. -/
theorem Unquoted.eq_outside {cs rest : List Char} (h : Unquoted cs rest) :
    rest = outside none cs := by
  induction h with
  | nil => rfl
  | char hc _ ih => rw [outside, if_neg (by simp [hc]), ← ih]
  | closed hq hinside _ ih => rw [List.cons_append, outside, if_pos hq, outside_closed hinside, ih]
  | unclosed hq hinside => rw [outside, if_pos hq, outside_unclosed hinside]

lemma unquoted_outside (cs : List Char) : Unquoted cs (outside none cs) := by
  induction hn : cs.length using Nat.strongRecOn generalizing cs with
  | ind n ih =>
    cases cs with
    | nil => exact .nil
    | cons c cs =>
      rw [List.length_cons] at hn
      rw [outside]
      split
      · rename_i hc
        by_cases hmem : c ∈ cs
        · obtain ⟨inside, after, rfl, hinside⟩ := List.eq_append_cons_of_mem hmem
          rw [List.length_append, List.length_cons] at hn
          rw [outside_closed hinside]
          exact .closed hc hinside (ih after.length (by omega) after rfl)
        · rw [outside_unclosed hmem]
          exact .unclosed hc hmem
      · rename_i hc
        exact .char (by simpa using hc) (ih cs.length (by omega) cs rfl)

lemma isQuote_of_mem_outside {quote : Option Char} {c : Char} {cs : List Char}
    (h : c ∈ outside quote cs) : isQuote c = false := by
  induction quote, cs using outside.induct with
  | case1 quote => simp [outside] at h
  | case2 q d cs ih => exact ih (by rwa [outside] at h)
  | case3 d cs hd ih => exact ih (by rwa [outside, if_pos hd] at h)
  | case4 d cs hd ih =>
    rw [outside, if_neg hd, List.mem_cons] at h
    rcases h with rfl | h
    · simpa using hd
    · exact ih h

section

variable {c o p : Char} {pending cs : List Char}

lemma reads_nil (quote : Option Char) (pending : List Char) :
    reads quote pending [] = pending.isEmpty := rfl

lemma reads_quoted (q c : Char) (pending cs : List Char) :
    reads (some q) pending (c :: cs) = reads (if c = q then none else some q) pending cs := rfl

/-- What is read outside quotations is a quotation mark, a bracket or neither. -/
theorem reads_cons (c : Char) (pending cs : List Char) :
    reads none pending (c :: cs) =
      if isQuote c then reads (some c) pending cs
      else if isOpener c then reads none (c :: pending) cs
      else match opener? c, pending with
        | none, pending => reads none pending cs
        | some o, p :: pending => p == o && reads none pending cs
        | some _, [] => false := rfl

lemma reads_quote (hq : isQuote c = true) :
    reads none pending (c :: cs) = reads (some c) pending cs := by simp [reads_cons, hq]

lemma reads_opener (hq : isQuote c = false) (ho : isOpener c = true) :
    reads none pending (c :: cs) = reads none (c :: pending) cs := by simp [reads_cons, hq, ho]

lemma reads_closer (hq : isQuote c = false) (ho : isOpener c = false)
    (hc : opener? c = some o) :
    reads none (p :: pending) (c :: cs) = (p == o && reads none pending cs) := by
  simp [reads_cons, hq, ho, hc]

lemma reads_closer_nil (hq : isQuote c = false) (ho : isOpener c = false)
    (hc : opener? c = some o) : reads none [] (c :: cs) = false := by
  simp [reads_cons, hq, ho, hc]

lemma reads_other (hq : isQuote c = false) (ho : isOpener c = false) (hc : opener? c = none) :
    reads none pending (c :: cs) = reads none pending cs := by simp [reads_cons, hq, ho, hc]

end

/-- Quotations are passed over. -/
theorem reads_eq_reads_outside (quote : Option Char) (pending cs : List Char) :
    reads quote pending cs = reads none pending (outside quote cs) := by
  induction cs generalizing quote pending with
  | nil => rw [outside, reads_nil, reads_nil]
  | cons c cs ih =>
    cases quote with
    | some q => rw [reads_quoted, outside, ih]
    | none =>
      rw [outside]
      split
      · rename_i hq
        rw [reads_quote hq, ih]
      · rename_i hq
        simp [reads_cons, hq, ← ih]

/-- What the reader makes of the brackets of a pair. -/
theorem brackets_spec : ∀ p ∈ brackets, (isQuote p.1 = false ∧ isOpener p.1 = true) ∧
    isQuote p.2 = false ∧ isOpener p.2 = false ∧ opener? p.2 = some p.1 := by decide

lemma isOpener_iff {o : Char} : isOpener o = true ↔ ∃ c, (o, c) ∈ brackets := by
  constructor
  · intro h
    simp only [isOpener, Bool.or_eq_true, beq_iff_eq] at h
    rcases h with (rfl | rfl) | rfl
    · exact ⟨')', by decide⟩
    · exact ⟨']', by decide⟩
    · exact ⟨'}', by decide⟩
  · rintro ⟨c, hp⟩
    exact (brackets_spec _ hp).1.2

lemma opener?_eq_some_iff {o c : Char} : opener? c = some o ↔ (o, c) ∈ brackets := by
  constructor
  · intro h
    unfold opener? at h
    split at h <;> cases h <;> decide
  · intro hp
    exact (brackets_spec _ hp).2.2.2

lemma isPlain_iff {c : Char} :
    IsPlain c ↔ isQuote c = false ∧ isOpener c = false ∧ opener? c = none := by
  rw [IsPlain]
  refine and_congr_right fun _ => ⟨fun h => ⟨?_, ?_⟩, fun ⟨ho, hc⟩ p hp => ⟨?_, ?_⟩⟩
  · rw [← Bool.not_eq_true, isOpener_iff]
    rintro ⟨d, hp⟩
    exact (h _ hp).1 rfl
  · rw [Option.eq_none_iff_forall_ne_some]
    intro o hc
    exact (h _ (opener?_eq_some_iff.mp hc)).2 rfl
  · rintro rfl
    rw [(brackets_spec p hp).1.2] at ho
    cases ho
  · rintro rfl
    rw [(brackets_spec p hp).2.2.2] at hc
    cases hc

lemma Matched.append {a b : List Char} (ha : Matched a) (hb : Matched b) : Matched (a ++ b) := by
  induction ha with
  | empty => exact hb
  | plain hc ha _ _ ih => rw [List.append_assoc]; exact .plain hc ha ih
  | pair hp ha hd _ _ _ ih => rw [List.append_assoc]; exact .pair hp ha hd ih

/-- A text closes the pending brackets, innermost first, and matches in between. -/
def Closes : List Char → List Char → Prop
  | [], cs => Matched cs
  | o :: pending, cs => ∃ a c after, cs = a ++ c :: after ∧ Matched a ∧ (o, c) ∈ brackets ∧
      Closes pending after

lemma Closes.append {pending a cs : List Char} (ha : Matched a) (h : Closes pending cs) :
    Closes pending (a ++ cs) := by
  cases pending with
  | nil => exact ha.append h
  | cons o pending =>
    obtain ⟨b, c, after, rfl, hb, hp, hafter⟩ := h
    exact ⟨a ++ b, c, after, by rw [List.append_assoc], ha.append hb, hp, hafter⟩

/-- Matching brackets are read without a trace. -/
theorem reads_matched_append {a : List Char} (h : Matched a) (pending cs : List Char) :
    reads none pending (a ++ cs) = reads none pending cs := by
  induction h generalizing pending cs with
  | empty => rfl
  | plain hc _ _ iha ihb =>
    obtain ⟨hq, ho, hc⟩ := isPlain_iff.mp hc
    rw [List.append_assoc, iha, List.cons_append, reads_other hq ho hc, ihb]
  | pair hp _ _ _ iha ihb ihd =>
    obtain ⟨⟨hqo, ho⟩, hqc, hc, hopener⟩ := brackets_spec _ hp
    rw [List.append_assoc, List.append_assoc, iha, List.cons_append, reads_opener hqo ho, ihb,
      List.cons_append, reads_closer hqc hc hopener, ihd]
    simp

/-- What is read to its end closes the pending brackets. -/
theorem closes_of_reads {pending cs : List Char} (hcs : ∀ c ∈ cs, isQuote c = false)
    (h : reads none pending cs = true) : Closes pending cs := by
  induction cs generalizing pending with
  | nil =>
    rw [reads_nil, List.isEmpty_iff] at h
    subst h
    exact Matched.empty
  | cons c cs ih =>
    obtain ⟨hq, hcs⟩ := List.forall_mem_cons.mp hcs
    by_cases ho : isOpener c = true
    · rw [reads_opener hq ho] at h
      obtain ⟨b, d, after, rfl, hb, hp, hafter⟩ := ih hcs h
      have hpair : Matched ([] ++ c :: b ++ d :: []) := .pair hp .empty hb .empty
      simpa using Closes.append hpair hafter
    · rw [Bool.not_eq_true] at ho
      cases hc : opener? c with
      | none =>
        rw [reads_other hq ho hc] at h
        have hplain : Matched ([] ++ c :: []) := .plain (isPlain_iff.mpr ⟨hq, ho, hc⟩) .empty .empty
        exact Closes.append hplain (ih hcs h)
      | some o =>
        cases pending with
        | nil =>
          rw [reads_closer_nil hq ho hc] at h
          cases h
        | cons p pending =>
          rw [reads_closer hq ho hc, Bool.and_eq_true, beq_iff_eq] at h
          obtain ⟨rfl, h⟩ := h
          exact ⟨[], c, cs, rfl, .empty, opener?_eq_some_iff.mp hc, ih hcs h⟩

end Balance

open Balance in
/-- A text has one rest outside its quotations, and it is balanced if and only if the grammar of
matching brackets generates this rest. -/
theorem isBalanced_iff_matched (text : String) :
    ∃ rest, (∀ other, Unquoted text.toList other ↔ other = rest) ∧
      (isBalanced text = true ↔ Matched rest) := by
  refine ⟨outside none text.toList, fun other => ?_, ?_⟩
  · exact ⟨Unquoted.eq_outside, fun h => h ▸ unquoted_outside _⟩
  · rw [isBalanced, reads_eq_reads_outside]
    constructor
    · intro hreads
      exact closes_of_reads (fun c hc => isQuote_of_mem_outside hc) hreads
    · intro hmatched
      rw [← List.append_nil (outside _ _), reads_matched_append hmatched, reads_nil,
        List.isEmpty_nil]

end GrammarInduction
