import GrammarInduction.Neighbourhood.Likeness
import GrammarInduction.Proofs.SymbolTable.Interning

/-!
Neighbourhoods under two symbol tables. Neighbours agree when they are the same end or symbols of
the same label, whatever the numbers are. The likeness of neighbourhoods depends on nothing else.
-/
namespace GrammarInduction

/-- Two neighbours are the same once their symbols are resolved, each in its own table. -/
inductive Neighbour.Agrees (t t' : SymbolTable) : Neighbour → Neighbour → Prop
  | start : Neighbour.Agrees t t' .start .start
  | stop : Neighbour.Agrees t t' .stop .stop
  | hidden : Neighbour.Agrees t t' .hidden .hidden
  | symbol {i j : SymbolId} {label : String} (hi : t.resolve i = .ok label)
      (hj : t'.resolve j = .ok label) : Neighbour.Agrees t t' (.symbol i) (.symbol j)

abbrev Side.Agrees (t t' : SymbolTable) : Side → Side → Prop :=
  List.Forall₂ (Neighbour.Agrees t t')

structure Neighbourhood.Agrees (t t' : SymbolTable) (a b : Neighbourhood) : Prop where
  left : Side.Agrees t t' a.left b.left
  right : Side.Agrees t t' a.right b.right

/-- A relation under which both sides of equal things are equal. -/
def PreservesEq {α β : Type} (R : α → β → Prop) : Prop :=
  ∀ a b a' b', R a b → R a' b' → (a = a' ↔ b = b')

section

variable {t t' u u' : SymbolTable}

lemma Neighbour.Agrees.mono {a b : Neighbour} (h : Neighbour.Agrees t t' a b) (ht : t.Within u)
    (ht' : t'.Within u') : Neighbour.Agrees u u' a b := by
  cases h with
  | start => exact .start
  | stop => exact .stop
  | hidden => exact .hidden
  | symbol hi hj => exact .symbol (ht.resolve hi) (ht'.resolve hj)

lemma Neighbourhood.Agrees.mono {a b : Neighbourhood} (h : Neighbourhood.Agrees t t' a b)
    (ht : t.Within u) (ht' : t'.Within u') : Neighbourhood.Agrees u u' a b :=
  ⟨h.left.imp fun _ _ hn => hn.mono ht ht', h.right.imp fun _ _ hn => hn.mono ht ht'⟩

/-- In tables of distinct labels, neighbours are equal when those are that agree with them. -/
theorem Neighbour.preservesEq_agrees (ht : t.Distinct) (ht' : t'.Distinct) :
    PreservesEq (Neighbour.Agrees t t') := by
  intro a b a' b' h h'
  cases h with
  | start => cases h' <;> simp
  | stop => cases h' <;> simp
  | hidden => cases h' <;> simp
  | @symbol i j label hi hj =>
    cases h' with
    | start => simp
    | stop => simp
    | hidden => simp
    | @symbol i' j' label' hi' hj' =>
      rw [Neighbour.symbol.injEq, Neighbour.symbol.injEq]
      constructor
      · rintro rfl
        obtain rfl := Except.ok.inj (hi.symm.trans hi')
        exact ht'.resolve_inj hj hj'
      · rintro rfl
        obtain rfl := Except.ok.inj (hj.symm.trans hj')
        exact ht.resolve_inj hi hi'

end

section

variable {α β : Type} {R : α → β → Prop}

/-- Lists of related elements are equal together. -/
theorem PreservesEq.forall₂ (h : PreservesEq R) : PreservesEq (List.Forall₂ R) := by
  intro as bs as' bs' hl hl'
  induction hl generalizing as' bs' with
  | nil => cases hl' <;> simp
  | cons hab _ ih =>
    cases hl' with
    | nil => simp
    | cons hab' hrest => rw [List.cons.injEq, List.cons.injEq, h _ _ _ _ hab hab', ih _ _ hrest]

end

section

variable {t t' : SymbolTable}

lemma Neighbourhood.preservesEq_agrees (ht : t.Distinct) (ht' : t'.Distinct) :
    PreservesEq (Neighbourhood.Agrees t t') := by
  intro a b a' b' h h'
  have hside := (Neighbour.preservesEq_agrees ht ht').forall₂
  obtain ⟨l, r⟩ := a
  obtain ⟨l', r'⟩ := a'
  obtain ⟨m, s⟩ := b
  obtain ⟨m', s'⟩ := b'
  rw [Neighbourhood.mk.injEq, Neighbourhood.mk.injEq, hside _ _ _ _ h.left h'.left,
    hside _ _ _ _ h.right h'.right]

end

namespace Likeness

variable {t t' : SymbolTable}

lemma agree_eq (h : PreservesEq (Neighbour.Agrees t t')) {a b a' b' : Neighbour}
    (ha : Neighbour.Agrees t t' a a') (hb : Neighbour.Agrees t t' b b') :
    agree a b = agree a' b' := by
  have hhidden := h a a' .hidden .hidden ha .hidden
  rw [agree, agree, decide_eq_decide, h a a' b b' ha hb, ne_eq, ne_eq, hhidden]

lemma scan_eq (h : PreservesEq (Neighbour.Agrees t t')) (ws : List Nat) {a b a' b' : Side}
    (ha : Side.Agrees t t' a a') (hb : Side.Agrees t t' b b') : scan ws a b = scan ws a' b' := by
  induction ws generalizing a b a' b' with
  | nil => simp [scan]
  | cons w ws ih =>
    cases ha with
    | nil =>
      cases hb with
      | nil => rfl
      | cons hy hb => rfl
    | cons hx ha =>
      cases hb with
      | nil => rfl
      | cons hy hb => rw [scan, scan, agree_eq h hx hy, ih ha hb]

/-- The likeness of sides is that of the sides which agree with them. -/
theorem sides_eq (h : PreservesEq (Neighbour.Agrees t t')) (flank : Flank) {a b a' b' : Side}
    (ha : Side.Agrees t t' a a') (hb : Side.Agrees t t' b b') :
    sides flank a b = sides flank a' b' := by
  have hscan : scan weights (flank.outward a) (flank.outward b) =
      scan weights (flank.outward a') (flank.outward b') := by
    cases flank with
    | left => exact scan_eq h weights (List.rel_reverse ha) (List.rel_reverse hb)
    | right => exact scan_eq h weights ha hb
  rw [sides, sides, hscan]
  exact if_congr (h.forall₂ _ _ _ _ ha hb) rfl rfl

/-- The likeness of neighbourhoods is that of the neighbourhoods which agree with them. -/
theorem neighbourhoods_eq (ht : t.Distinct) (ht' : t'.Distinct) {a b a' b' : Neighbourhood}
    (ha : Neighbourhood.Agrees t t' a a') (hb : Neighbourhood.Agrees t t' b b') :
    neighbourhoods a b = neighbourhoods a' b' := by
  have h := Neighbour.preservesEq_agrees ht ht'
  rw [neighbourhoods, neighbourhoods, sides_eq h .left ha.left hb.left,
    sides_eq h .right ha.right hb.right]
  exact if_congr (Neighbourhood.preservesEq_agrees ht ht' _ _ _ _ ha hb) rfl rfl

end Likeness
end GrammarInduction
