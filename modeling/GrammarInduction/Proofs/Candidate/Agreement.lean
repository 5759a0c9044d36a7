import GrammarInduction.Candidate.Basic
import GrammarInduction.Proofs.Neighbourhood.Agreement

/-!
Candidates under two symbol tables. Two candidates agree when all that they hold is the same once
their neighbourhoods are resolved; their names may differ. What agrees before a recording agrees
after it.
-/
namespace GrammarInduction

namespace Catalogue

variable {κ κ' ν ν' : Type}

abbrev Related (R : κ → κ' → Prop) (S : ν → ν' → Prop) :
    List (κ × ν) → List (κ' × ν') → Prop :=
  List.Forall₂ fun e e' => R e.1 e'.1 ∧ S e.2 e'.2

lemma Related.keys_eq {S : ν → ν' → Prop} {es : List (κ × ν)} {es' : List (κ × ν')}
    (h : Related Eq S es es') :
    es.map Prod.fst = es'.map Prod.fst := by
  induction h with
  | nil => rfl
  | cons he _ ih => rw [List.map_cons, List.map_cons, he.1, ih]

lemma Related.values_eq {R : κ → κ' → Prop} {es : List (κ × ν)} {es' : List (κ' × ν)}
    (h : Related R Eq es es') : es.map Prod.snd = es'.map Prod.snd := by
  induction h with
  | nil => rfl
  | cons he _ ih => rw [List.map_cons, List.map_cons, he.2, ih]

/-- Every key of one side has a related one on the other. -/
theorem Related.exists_key {R : κ → κ' → Prop} {S : ν → ν' → Prop} {es : List (κ × ν)}
    {es' : List (κ' × ν')} (h : Related R S es es') :
    (∀ x ∈ es.map Prod.fst, ∃ y ∈ es'.map Prod.fst, R x y) ∧
      ∀ y ∈ es'.map Prod.fst, ∃ x ∈ es.map Prod.fst, R x y := by
  induction h with
  | nil => exact ⟨fun x hx => absurd hx List.not_mem_nil, fun y hy => absurd hy List.not_mem_nil⟩
  | @cons e e' _ _ he _ ih =>
    refine ⟨List.forall_mem_cons.mpr ⟨⟨e'.1, List.mem_cons_self, he.1⟩, fun x hx => ?_⟩,
      List.forall_mem_cons.mpr ⟨⟨e.1, List.mem_cons_self, he.1⟩, fun y hy => ?_⟩⟩
    · obtain ⟨y, hy, hxy⟩ := ih.1 x hx
      exact ⟨y, List.mem_cons_of_mem _ hy, hxy⟩
    · obtain ⟨x, hx, hxy⟩ := ih.2 y hy
      exact ⟨x, List.mem_cons_of_mem _ hx, hxy⟩

variable [DecidableEq κ] [DecidableEq κ'] {R : κ → κ' → Prop} {S : ν → ν' → Prop}
  {es : List (κ × ν)} {es' : List (κ' × ν')} {k : κ} {k' : κ'}

/-- Related keys have related values. -/
theorem Related.find? (hR : PreservesEq R) (h : Related R S es es') (hk : R k k') :
    Option.Rel S (find? k es) (find? k' es') := by
  induction h with
  | nil => exact .none
  | @cons e e' _ _ he _ ih =>
    rw [Catalogue.find?, Catalogue.find?]
    by_cases heq : e.1 = k
    · rw [if_pos heq, if_pos ((hR _ _ _ _ he.1 hk).mp heq)]
      exact .some he.2
    · rw [if_neg heq, if_neg fun h' => heq ((hR _ _ _ _ he.1 hk).mpr h')]
      exact ih

/-- Entries stay related when values under related keys are replaced by related ones. -/
theorem Related.alter (hR : PreservesEq R) (h : Related R S es es') (hk : R k k')
    {f : Option ν → ν} {f' : Option ν' → ν'}
    (hf : ∀ o o', Option.Rel S o o' → S (f o) (f' o')) :
    Related R S (alter k f es) (alter k' f' es') := by
  induction h with
  | nil => exact .cons ⟨hk, hf _ _ .none⟩ .nil
  | @cons e e' _ _ he hrest ih =>
    rw [Catalogue.alter, Catalogue.alter]
    by_cases heq : e.1 = k
    · rw [if_pos heq, if_pos ((hR _ _ _ _ he.1 hk).mp heq)]
      exact .cons ⟨hk, hf _ _ (.some he.2)⟩ hrest
    · rw [if_neg heq, if_neg fun h' => heq ((hR _ _ _ _ he.1 hk).mpr h')]
      exact .cons he ih

end Catalogue

/-- Two candidates hold the same once their neighbourhoods are resolved, each in its own table. -/
structure Candidate.Agrees (t t' : SymbolTable) (c c' : Candidate) : Prop where
  elements : c.elements = c'.elements
  depth : c.depth = c'.depth
  seq : c.seq = c'.seq
  occurrences : c.occurrences = c'.occurrences
  sources : c.sources = c'.sources
  neighbourhoods : Catalogue.Related (Neighbourhood.Agrees t t') Eq c.neighbourhoods.entries
    c'.neighbourhoods.entries

namespace Candidate.Agrees

variable {t t' : SymbolTable} {c c' : Candidate}

/-- Candidates that were just made agree, whatever their names are. -/
theorem new (t t' : SymbolTable) (id id' : String) (elements : List Node) (depth seq : Nat) :
    Candidate.Agrees t t' { id, elements, depth, seq } { id := id', elements, depth, seq } where
  elements := rfl
  depth := rfl
  seq := rfl
  occurrences := rfl
  sources := rfl
  neighbourhoods := .nil

lemma mono {u u' : SymbolTable} (h : Candidate.Agrees t t' c c') (ht : t.Within u)
    (ht' : t'.Within u') : Candidate.Agrees u u' c c' :=
  { h with neighbourhoods := h.neighbourhoods.imp fun _ _ he => ⟨he.1.mono ht ht', he.2⟩ }

/-- Recording at the same place in neighbourhoods that agree. -/
theorem record (h : Candidate.Agrees t t' c c') (ht : t.Distinct) (ht' : t'.Distinct)
    (site : Site) (span : Span) {n n' : Neighbourhood} (hn : Neighbourhood.Agrees t t' n n')
    (depth : Nat) :
    Candidate.Agrees t t' (c.record site span n depth) (c'.record site span n' depth) where
  elements := h.elements
  depth := by rw [Candidate.record, Candidate.record]; exact congrArg (min · depth) h.depth
  seq := h.seq
  occurrences := congrArg (· + 1) h.occurrences
  sources := by
    show c.sources.upsert site _ = c'.sources.upsert site _
    rw [h.sources]
  neighbourhoods := by
    refine h.neighbourhoods.alter (Neighbourhood.preservesEq_agrees ht ht') hn ?_
    intro o o' ho
    cases ho with
    | none => rfl
    | some he => rw [he]

end Candidate.Agrees
end GrammarInduction
