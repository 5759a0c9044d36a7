import Mathlib.Data.List.Nodup
import Mathlib.Data.Sym.Sym2
import GrammarInduction.Proofs.Candidate.Breaking
import GrammarInduction.Proofs.Candidate.Likeness
import GrammarInduction.Ranking

/-!
The pairs that a ranking scores. With any memo that can arise they are the pairs of candidates
that are neither both single nor break each other, each once, with the score that the candidates
have in their order.
-/
namespace GrammarInduction

namespace Candidate

/-- The order of candidates in a ranking: those with more elements first, among equals those that
were found earlier. -/
def Precedes (a b : Candidate) : Prop :=
  b.length < a.length ∨ (b.length = a.length ∧ a.seq < b.seq)

def Compatible (a b : Candidate) : Prop :=
  ∃ v, a.breaking b = .ok v ∧ ¬(v.selfBreaksOther = true ∧ v.otherBreaksSelf = true)

/-- A candidate leaves another one a place to apply. -/
def Spares (a b : Candidate) : Prop := ∃ v, a.breaking b = .ok v ∧ v.selfBreaksOther = false

lemma isSingle_iff {c : Candidate} : c.isSingle = true ↔ c.length = 1 := beq_iff_eq

section

variable {a b : Candidate}

/-- A candidate that occurs somewhere can be compared with any other one. -/
theorem breaking_eq_ok_of_occurs (h : a.sources.isEmpty = false) :
    ∃ v, a.breaking b = .ok v ∧ (v.selfBreaksOther = true ↔ a.Breaks b) ∧
      (v.otherBreaksSelf = true ↔ b.Breaks a) :=
  breaking_eq_ok (by rw [h]; rfl)

lemma compatible_iff (h : a.sources.isEmpty = false) :
    a.Compatible b ↔ ¬(a.Breaks b ∧ b.Breaks a) := by
  obtain ⟨v, hv, hself, hother⟩ := breaking_eq_ok_of_occurs (b := b) h
  simp [Compatible, hv, ← hself, ← hother]

lemma spares_iff (h : a.sources.isEmpty = false) : a.Spares b ↔ ¬a.Breaks b := by
  obtain ⟨v, hv, hself, -⟩ := breaking_eq_ok_of_occurs (b := b) h
  simp [Spares, hv, ← hself]

lemma Compatible.symm (ha : a.sources.isEmpty = false) (hb : b.sources.isEmpty = false)
    (h : a.Compatible b) : b.Compatible a := by
  rw [compatible_iff hb, and_comm]
  exact (compatible_iff ha).mp h

end

end Candidate

namespace Ranking
open Candidate

/-- The scored pair of two candidates, the first of which precedes the second. -/
def pairOf? (settings : Settings) (a b : Candidate) : Option ScoredPair :=
  if a.isSingle && b.isSingle then none
  else match a.breaking b with
    | .error _ => none
    | .ok v =>
      if v.selfBreaksOther && v.otherBreaksSelf then none
      else some ⟨score settings (a.likeness b) a b, if v.selfBreaksOther then b else a,
        if v.selfBreaksOther then a else b⟩

def pairsOf (settings : Settings) : List Candidate → List ScoredPair
  | [] => []
  | a :: as => as.filterMap (pairOf? settings a) ++ pairsOf settings as

/-- What a memo adds to the pairs: nothing but what it knows afterwards. -/
theorem scorePair_eq (settings : Settings) {a : Candidate} (b : Candidate) {memo : LikenessMemo}
    (hm : memo.Reachable) (ha : a.sources.isEmpty = false) :
    ∃ memo', scorePair settings a b memo = .ok (pairOf? settings a b, memo') ∧
      memo'.Reachable := by
  obtain ⟨v, hv, -⟩ := breaking_eq_ok_of_occurs (b := b) ha
  cases hs : a.isSingle && b.isSingle with
  | true => exact ⟨memo, by simp only [scorePair, pairOf?, hs, if_true], hm⟩
  | false =>
    rw [scorePair, pairOf?, hs, hv]
    cases hb : v.selfBreaksOther && v.otherBreaksSelf with
    | true => exact ⟨memo, by simp [bind, Except.bind, hb, pure, Except.pure], hm⟩
    | false =>
      have hlike := likenessBy_fst hm.sound a b
      refine ⟨(a.likenessBy memo b).2, ?_, hm.likenessBy a b⟩
      simp only [bind, Except.bind, hb, hlike, pure, Except.pure, Bool.false_eq_true, if_false]
      cases hsb : v.selfBreaksOther <;> simp

lemma scoreWith_eq (settings : Settings) {a : Candidate} (bs : List Candidate)
    {memo : LikenessMemo} (hm : memo.Reachable) (ha : a.sources.isEmpty = false) :
    ∃ memo', scoreWith settings a bs memo = .ok (bs.filterMap (pairOf? settings a), memo') ∧
      memo'.Reachable := by
  induction bs generalizing memo with
  | nil => exact ⟨memo, rfl, hm⟩
  | cons b bs ih =>
    obtain ⟨m1, h1, hm1⟩ := scorePair_eq settings b hm ha
    obtain ⟨m2, h2, hm2⟩ := ih hm1
    refine ⟨m2, ?_, hm2⟩
    rw [scoreWith, h1]
    simp only [bind, Except.bind, h2, pure, Except.pure, List.filterMap_cons]
    cases pairOf? settings a b <;> rfl

lemma scorePairs_eq (settings : Settings) {cs : List Candidate} {memo : LikenessMemo}
    (hm : memo.Reachable) (hcs : ∀ c ∈ cs, c.sources.isEmpty = false) :
    ∃ memo', scorePairs settings cs memo = .ok (pairsOf settings cs, memo') ∧
      memo'.Reachable := by
  induction cs generalizing memo with
  | nil => exact ⟨memo, rfl, hm⟩
  | cons a as ih =>
    obtain ⟨m1, h1, hm1⟩ := scoreWith_eq settings as hm (hcs a (by simp))
    obtain ⟨m2, h2, hm2⟩ := ih hm1 fun c hc => hcs c (by simp [hc])
    refine ⟨m2, ?_, hm2⟩
    rw [scorePairs, h1]
    simp only [bind, Except.bind, h2, pure, Except.pure, pairsOf]

/-- What the scored pair of two candidates says. -/
structure Judges (settings : Settings) (a b : Candidate) (p : ScoredPair) : Prop where
  notBothSingle : ¬(a.length = 1 ∧ b.length = 1)
  compatible : a.Compatible b
  score_eq : p.score = score settings (a.likeness b) a b
  order : p.first = a ∧ p.second = b ∨ p.first = b ∧ p.second = a
  spares : p.first.Spares p.second

lemma judges_of_pairOf? {settings : Settings} {a b : Candidate} {p : ScoredPair}
    (ha : a.sources.isEmpty = false) (hb : b.sources.isEmpty = false)
    (h : pairOf? settings a b = some p) : Judges settings a b p := by
  obtain ⟨v, hv, hself, hother⟩ := breaking_eq_ok_of_occurs (b := b) ha
  simp only [pairOf?, hv] at h
  split at h
  · cases h
  · rename_i hs
    split at h
    · cases h
    · rename_i hbreak
      obtain rfl := Option.some.inj h
      rw [Bool.and_eq_true, isSingle_iff, isSingle_iff] at hs
      rw [Bool.and_eq_true] at hbreak
      refine ⟨hs, ⟨v, hv, hbreak⟩, rfl, ?_, ?_⟩
      · cases v.selfBreaksOther <;> simp
      · cases hsb : v.selfBreaksOther with
        | false => exact ⟨v, hv, hsb⟩
        | true => exact (spares_iff hb).mpr fun h => hbreak ⟨hsb, hother.mpr h⟩

lemma exists_pairOf? (settings : Settings) {a b : Candidate}
    (hs : ¬(a.length = 1 ∧ b.length = 1)) (h : a.Compatible b) :
    ∃ p, pairOf? settings a b = some p := by
  obtain ⟨v, hv, hbreak⟩ := h
  have hs' : (a.isSingle && b.isSingle) = false := by
    rw [← Bool.not_eq_true, Bool.and_eq_true, isSingle_iff, isSingle_iff]
    exact hs
  have hb' : (v.selfBreaksOther && v.otherBreaksSelf) = false := by
    rw [← Bool.not_eq_true, Bool.and_eq_true]
    exact hbreak
  simp [pairOf?, hs', hv, hb']

section

variable {settings : Settings} {cs : List Candidate}

/-- The pairs of candidates in strict order are those of any two of them, in their order. -/
theorem mem_pairsOf_iff (hcs : cs.Pairwise Precedes) {p : ScoredPair} :
    p ∈ pairsOf settings cs ↔
      ∃ a ∈ cs, ∃ b ∈ cs, a.Precedes b ∧ pairOf? settings a b = some p := by
  induction cs with
  | nil => simp [pairsOf]
  | cons c cs ih =>
    obtain ⟨hc, hcs⟩ := List.pairwise_cons.mp hcs
    have hirr : ∀ a b : Candidate, a.Precedes b → ¬b.Precedes a := by
      rintro a b (h | h) (h' | h') <;> omega
    rw [pairsOf, List.mem_append, List.mem_filterMap, ih hcs]
    constructor
    · rintro (⟨b, hb, hp⟩ | ⟨a, ha, b, hb, hab, hp⟩)
      · exact ⟨c, by simp, b, by simp [hb], hc b hb, hp⟩
      · exact ⟨a, by simp [ha], b, by simp [hb], hab, hp⟩
    · rintro ⟨a, ha, b, hb, hab, hp⟩
      rcases List.mem_cons.mp ha with rfl | ha' <;> rcases List.mem_cons.mp hb with rfl | hb'
      · exact absurd hab (hirr _ _ hab)
      · exact .inl ⟨b, hb', hp⟩
      · exact absurd (hc a ha') (hirr _ _ hab)
      · exact .inr ⟨a, ha', b, hb', hab, hp⟩

def pairIds (p : ScoredPair) : Sym2 String := s(p.first.id, p.second.id)

lemma pairIds_of_pairOf? {a b : Candidate} {p : ScoredPair} (h : pairOf? settings a b = some p) :
    pairIds p = s(a.id, b.id) := by
  simp only [pairOf?] at h
  split at h
  · cases h
  · split at h
    · cases h
    · rename_i v hv
      split at h
      · cases h
      · obtain rfl := Option.some.inj h
        cases v.selfBreaksOther <;> simp [pairIds, Sym2.eq_swap]

/-- The pairs of one candidate with others name each of these at most once. -/
theorem pairIds_filterMap_sublist (a : Candidate) (bs : List Candidate) :
    List.Sublist ((bs.filterMap (pairOf? settings a)).map pairIds)
      (bs.map fun b => s(a.id, b.id)) := by
  induction bs with
  | nil => exact List.Sublist.slnil
  | cons b bs ih =>
    rw [List.filterMap_cons, List.map_cons]
    cases hp : pairOf? settings a b with
    | none => exact ih.cons _
    | some p =>
      rw [List.map_cons, pairIds_of_pairOf? hp]
      exact ih.cons_cons _

/-- Pairs are of candidates that are there. -/
theorem mem_ids_of_mem_pairIds {p : ScoredPair} (hp : p ∈ pairsOf settings cs) {x : String}
    (hx : x ∈ pairIds p) : x ∈ cs.map Candidate.id := by
  induction cs with
  | nil => simp [pairsOf] at hp
  | cons c cs ih =>
    rcases List.mem_append.mp hp with hp | hp
    · obtain ⟨b, hb, hpb⟩ := List.mem_filterMap.mp hp
      rw [pairIds_of_pairOf? hpb, Sym2.mem_iff] at hx
      rcases hx with rfl | rfl
      · exact List.mem_cons_self
      · exact List.mem_cons_of_mem _ (List.mem_map_of_mem hb)
    · exact List.mem_cons_of_mem _ (ih hp)

lemma nodup_pairIds (hids : (cs.map Candidate.id).Nodup) :
    ((pairsOf settings cs).map pairIds).Nodup := by
  induction cs with
  | nil => simp [pairsOf]
  | cons c cs ih =>
    obtain ⟨hc, hids⟩ := List.nodup_cons.mp hids
    rw [pairsOf, List.map_append, List.nodup_append]
    refine ⟨List.Nodup.sublist (pairIds_filterMap_sublist c cs) ?_, ih hids, ?_⟩
    · rw [List.Nodup, List.pairwise_map]
      exact (List.pairwise_map.mp hids).imp fun hne he => hne (Sym2.congr_right.mp he)
    · intro x hx y hy he
      obtain ⟨p, hp, rfl⟩ := List.mem_map.mp hx
      obtain ⟨q, hq, rfl⟩ := List.mem_map.mp hy
      obtain ⟨b, -, hpb⟩ := List.mem_filterMap.mp hp
      have hcq : c.id ∈ pairIds q := by
        rw [← he, pairIds_of_pairOf? hpb]
        exact Sym2.mem_mk_left _ _
      exact hc (mem_ids_of_mem_pairIds hq hcq)

end

end Ranking
end GrammarInduction
