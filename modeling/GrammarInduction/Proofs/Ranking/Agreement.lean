import GrammarInduction.Proofs.Ranking.Proposals
import GrammarInduction.Proofs.Survey.Agreement

/-!
Rankings under two symbol tables and any iteration order. Candidates are sorted before they are
paired, the likeness is a maximum, and names only tell candidates apart, so what two rankings of
surveys that agree propose is the same at every position.
-/
namespace GrammarInduction

section

variable {α β : Type} {R S : α → β → Prop} {as : List α} {bs : List β}

lemma forall₂_imp_of_mem (h : List.Forall₂ R as bs)
    (hRS : ∀ a ∈ as, ∀ b ∈ bs, R a b → S a b) : List.Forall₂ S as bs := by
  induction h with
  | nil => exact .nil
  | cons hab _ ih =>
    refine .cons (hRS _ List.mem_cons_self _ List.mem_cons_self hab) (ih fun a ha b hb => ?_)
    exact hRS a (List.mem_cons_of_mem _ ha) b (List.mem_cons_of_mem _ hb)

/-- Stable sorting keeps elements together if they are compared alike. -/
theorem forall₂_mergeSort {le : α → α → Bool} {le' : β → β → Bool} (h : List.Forall₂ R as bs)
    (hle : ∀ a a' b b', R a a' → R b b' → le a b = le' a' b') :
    List.Forall₂ R (as.mergeSort le) (bs.mergeSort le') := by
  obtain ⟨hlen, hzip⟩ := List.forall₂_iff_zip.mp h
  have hfst : ((as.zip bs).mergeSort fun z w => le z.1 w.1).map Prod.fst = as.mergeSort le := by
    rw [List.map_mergeSort (s := le) fun _ _ _ _ => rfl, List.map_fst_zip hlen.le]
  have hsnd : ((as.zip bs).mergeSort fun z w => le z.1 w.1).map Prod.snd = bs.mergeSort le' := by
    rw [List.map_mergeSort (s := le') fun z hz w hw => hle _ _ _ _ (hzip hz) (hzip hw),
      List.map_snd_zip hlen.ge]
  rw [← hfst, ← hsnd, List.forall₂_map_left_iff, List.forall₂_map_right_iff, List.forall₂_same]
  intro z hz
  exact hzip (List.mem_mergeSort.mp hz)

end

namespace Candidate

/-- Two candidates that a ranking cannot tell apart, each with neighbourhoods in its own table. -/
structure RanksLike (t t' : SymbolTable) (c d : Candidate) : Prop where
  elements : c.elements = d.elements
  depth : c.depth = d.depth
  seq : c.seq = d.seq
  total : c.neighbourhoodTotal = d.neighbourhoodTotal
  sources : ∀ site, c.sources.get? site = d.sources.get? site
  left : ∀ x ∈ c.neighbourhoods.keys, ∃ y ∈ d.neighbourhoods.keys, Neighbourhood.Agrees t t' x y
  right : ∀ y ∈ d.neighbourhoods.keys, ∃ x ∈ c.neighbourhoods.keys, Neighbourhood.Agrees t t' x y

namespace RanksLike

variable {t t' : SymbolTable} {a b c d : Candidate}

lemma length_eq (h : RanksLike t t' c d) : c.length = d.length := by
  rw [Candidate.length, Candidate.length, h.elements]

lemma isSingle_eq (h : RanksLike t t' c d) : c.isSingle = d.isSingle := by
  rw [isSingle, isSingle, h.length_eq]

lemma rendered_eq (h : RanksLike t t' c d) : c.rendered = d.rendered := by
  rw [rendered, rendered, h.elements]

/-- The likeness of candidates is that of those which rank like them. -/
theorem likeness_eq (ht : t.Distinct) (ht' : t'.Distinct) (ha : RanksLike t t' a c)
    (hb : RanksLike t t' b d) : a.likeness b = c.likeness d := by
  apply Nat.le_antisymm
  · rw [likeness_le_iff]
    intro x hx y hy
    obtain ⟨x', hx', hxx⟩ := ha.left x hx
    obtain ⟨y', hy', hyy⟩ := hb.left y hy
    rw [Likeness.neighbourhoods_eq ht ht' hxx hyy]
    exact likeness_le_iff.mp (Nat.le_refl _) x' hx' y' hy'
  · rw [likeness_le_iff]
    intro x' hx' y' hy'
    obtain ⟨x, hx, hxx⟩ := ha.right x' hx'
    obtain ⟨y, hy, hyy⟩ := hb.right y' hy'
    rw [← Likeness.neighbourhoods_eq ht ht' hxx hyy]
    exact likeness_le_iff.mp (Nat.le_refl _) x hx y hy

lemma breaks_iff (ha : RanksLike t t' a c) (hb : RanksLike t t' b d) :
    a.Breaks b ↔ c.Breaks d := by
  simp only [Breaks, Catalogue.mem_keys_iff, spansAt, ha.sources, hb.sources]

end RanksLike
end Candidate

namespace Ranking
open Candidate

variable {t t' : SymbolTable} {settings settings' : Settings}

/-- The settings give the same scores and want the same number of proposals. -/
structure SameScoring (settings settings' : Settings) : Prop where
  pairDepth : settings.pairDepth = settings'.pairDepth
  pairSize : settings.pairSize = settings'.pairSize
  maxProposals : settings.maxProposals = settings'.maxProposals

lemma SameScoring.symm (h : SameScoring settings settings') : SameScoring settings' settings :=
  ⟨h.pairDepth.symm, h.pairSize.symm, h.maxProposals.symm⟩

lemma SameScoring.trans {other : Settings} (h : SameScoring settings settings')
    (h' : SameScoring settings' other) : SameScoring settings other :=
  ⟨h.pairDepth.trans h'.pairDepth, h.pairSize.trans h'.pairSize,
    h.maxProposals.trans h'.maxProposals⟩

lemma score_eq (hs : SameScoring settings settings') (ht : t.Distinct) (ht' : t'.Distinct)
    {a b c d : Candidate} (ha : RanksLike t t' a c) (hb : RanksLike t t' b d) :
    score settings (a.likeness b) a b = score settings' (c.likeness d) c d := by
  have hcommon : commonness a b = commonness c d := by
    rw [commonness, commonness, ha.isSingle_eq, hb.isSingle_eq, ha.total, hb.total]
  rw [score, score, ha.likeness_eq ht ht' hb, hcommon, ha.length_eq, hb.length_eq, ha.depth,
    hb.depth, hs.pairDepth, hs.pairSize]

/-- Pairs with the same score of candidates that are related in their order. -/
structure PairLike (K : Candidate → Candidate → Prop) (p q : ScoredPair) : Prop where
  score : p.score = q.score
  first : K p.first q.first
  second : K p.second q.second

lemma pairOf?_rel (hs : SameScoring settings settings') (ht : t.Distinct) (ht' : t'.Distinct)
    {K : Candidate → Candidate → Prop} (hK : ∀ c d, K c d → RanksLike t t' c d)
    (hoccurs : ∀ c d, K c d → c.sources.isEmpty = false ∧ d.sources.isEmpty = false)
    {a b c d : Candidate} (ha : K a c) (hb : K b d) :
    Option.Rel (PairLike K) (pairOf? settings a b) (pairOf? settings' c d) := by
  have hac := hK a c ha
  have hbd := hK b d hb
  obtain ⟨v, hv, hself, hother⟩ := breaking_eq_ok_of_occurs (b := b) (hoccurs a c ha).1
  obtain ⟨w, hw, hself', hother'⟩ := breaking_eq_ok_of_occurs (b := d) (hoccurs a c ha).2
  have hfirst : v.selfBreaksOther = w.selfBreaksOther := by
    rw [Bool.eq_iff_iff, hself, hself', hac.breaks_iff hbd]
  have hsecond : v.otherBreaksSelf = w.otherBreaksSelf := by
    rw [Bool.eq_iff_iff, hother, hother', hbd.breaks_iff hac]
  have hvw : v = w := by
    obtain ⟨v1, v2⟩ := v
    obtain ⟨w1, w2⟩ := w
    exact Breaking.mk.injEq .. ▸ ⟨hfirst, hsecond⟩
  rw [pairOf?, pairOf?, hac.isSingle_eq, hbd.isSingle_eq, hv, hw, hvw,
    score_eq hs ht ht' hac hbd]
  split
  · exact .none
  · dsimp only
    split
    · exact .none
    · cases w.selfBreaksOther with
      | false => exact .some ⟨rfl, ha, hb⟩
      | true => exact .some ⟨rfl, hb, ha⟩

/-- The pairs of related candidates are related, in their order. -/
theorem pairsOf_rel {K : Candidate → Candidate → Prop}
    (hpair : ∀ a b c d, K a c → K b d →
      Option.Rel (PairLike K) (pairOf? settings a b) (pairOf? settings' c d))
    {cs ds : List Candidate} (h : List.Forall₂ K cs ds) :
    List.Forall₂ (PairLike K) (pairsOf settings cs) (pairsOf settings' ds) := by
  induction h with
  | nil => exact .nil
  | cons hcd hrest ih =>
    rw [pairsOf, pairsOf]
    exact List.rel_append (List.rel_filterMap (fun _ _ hbd => hpair _ _ _ _ hcd hbd) hrest) ih

/-- What decides the place of a candidate among others. -/
def place (c : Candidate) : Nat × Nat := (c.length, c.seq)

lemma nodup_place {cs : List Candidate} (h : (cs.map Candidate.seq).Nodup) :
    (cs.map place).Nodup := List.Nodup.of_map Prod.snd (by rwa [List.map_map])

/-- A candidate among some and one among others that ranks like it. -/
def Twins (t t' : SymbolTable) (cs ds : List Candidate) (c d : Candidate) : Prop :=
  c ∈ cs ∧ d ∈ ds ∧ RanksLike t t' c d

section

variable {cs ds : List Candidate}

/-- Sorted candidates stand at the same places if they do so in some order. -/
theorem map_place_sortCandidates (hcs : (cs.map Candidate.seq).Nodup)
    (hds : (ds.map Candidate.seq).Nodup) (h : (cs.map place).Perm (ds.map place)) :
    (sortCandidates cs).map place = (sortCandidates ds).map place := by
  have hsorted : ∀ {es : List Candidate}, (es.map Candidate.seq).Nodup →
      ((sortCandidates es).map place).Pairwise fun x y =>
        y.1 < x.1 ∨ (y.1 = x.1 ∧ x.2 < y.2) := by
    intro es hes
    rw [List.pairwise_map]
    exact pairwise_sortCandidates hes
  refine List.Perm.eq_of_pairwise ?_ (hsorted hcs) (hsorted hds) ?_
  · rintro ⟨m, i⟩ ⟨n, j⟩ - - h h'
    simp only at h h'
    omega
  · exact ((sortCandidates_perm cs).map place).trans
      (h.trans ((sortCandidates_perm ds).map place).symm)

/-- Candidates that rank alike come together by sorting. -/
theorem sortCandidates_rel (hcs : (cs.map Candidate.seq).Nodup) (hds : (ds.map Candidate.seq).Nodup)
    (hleft : ∀ c ∈ cs, ∃ d ∈ ds, RanksLike t t' c d)
    (hright : ∀ d ∈ ds, ∃ c ∈ cs, RanksLike t t' c d) :
    List.Forall₂ (Twins t t' cs ds) (sortCandidates cs) (sortCandidates ds) := by
  have hplaces : (cs.map place).Perm (ds.map place) := by
    rw [List.perm_ext_iff_of_nodup (nodup_place hcs) (nodup_place hds)]
    intro x
    rw [List.mem_map, List.mem_map]
    constructor
    · rintro ⟨c, hc, rfl⟩
      obtain ⟨d, hd, hcd⟩ := hleft c hc
      exact ⟨d, hd, Prod.ext hcd.length_eq.symm hcd.seq.symm⟩
    · rintro ⟨d, hd, rfl⟩
      obtain ⟨c, hc, hcd⟩ := hright d hd
      exact ⟨c, hc, Prod.ext hcd.length_eq hcd.seq⟩
  have hsame : List.Forall₂ Eq ((sortCandidates cs).map place) ((sortCandidates ds).map place) := by
    rw [map_place_sortCandidates hcs hds hplaces, List.forall₂_same]
    exact fun _ _ => rfl
  rw [List.forall₂_map_left_iff, List.forall₂_map_right_iff] at hsame
  refine forall₂_imp_of_mem hsame fun c hc d hd hplace => ?_
  have hc := (sortCandidates_perm cs).mem_iff.mp hc
  have hd := (sortCandidates_perm ds).mem_iff.mp hd
  obtain ⟨e, he, hce⟩ := hleft c hc
  have hseq : e.seq = d.seq := hce.seq.symm.trans (congrArg Prod.snd hplace)
  obtain rfl := List.inj_on_of_nodup_map hds he hd hseq
  exact ⟨hc, hd, hce⟩

/-- Names tell twins apart from others on both sides alike. -/
theorem Twins.id_eq_iff (hcs : Rankable cs) (hds : Rankable ds) {c d c' d' : Candidate}
    (h : Twins t t' cs ds c d) (h' : Twins t t' cs ds c' d') : c.id = c'.id ↔ d.id = d'.id := by
  obtain ⟨hc, hd, hcd⟩ := h
  obtain ⟨hc', hd', hcd'⟩ := h'
  constructor
  · intro hid
    obtain rfl := List.inj_on_of_nodup_map hcs.nodup_ids hc hc' hid
    exact congrArg Candidate.id (List.inj_on_of_nodup_map hds.nodup_seq hd hd'
      (hcd.seq.symm.trans hcd'.seq))
  · intro hid
    obtain rfl := List.inj_on_of_nodup_map hds.nodup_ids hd hd' hid
    exact congrArg Candidate.id (List.inj_on_of_nodup_map hcs.nodup_seq hc hc'
      (hcd.seq.trans hcd'.seq.symm))

end

inductive ProposalLike (K : Candidate → Candidate → Prop) : Proposal → Proposal → Prop
  | single {c d : Candidate} (h : K c d) : ProposalLike K (.single c) (.single d)
  | pair {a b c d : Candidate} (ha : K a c) (hb : K b d) : ProposalLike K (.pair a b) (.pair c d)

section

variable {K : Candidate → Candidate → Prop}

lemma ProposalLike.isPair_eq {p q : Proposal} (h : ProposalLike K p q) :
    p.isPair = q.isPair := by
  cases h <;> rfl

lemma ProposalLike.rendered_eq (hK : ∀ c d, K c d → c.rendered = d.rendered) {p q : Proposal}
    (h : ProposalLike K p q) :
    p.candidates.map Candidate.rendered = q.candidates.map Candidate.rendered := by
  cases h with
  | single h => simp only [Proposal.candidates, List.map_cons, List.map_nil, hK _ _ h]
  | pair ha hb => simp only [Proposal.candidates, List.map_cons, List.map_nil, hK _ _ ha, hK _ _ hb]

lemma proposalOf_rel (hsingle : ∀ c d, K c d → c.isSingle = d.isSingle) {p q : ScoredPair}
    (h : PairLike K p q) : ProposalLike K (proposalOf p) (proposalOf q) := by
  rw [proposalOf, proposalOf, hsingle _ _ h.first, hsingle _ _ h.second]
  split
  · exact .single h.second
  · split
    · exact .single h.first
    · exact .pair h.first h.second

/-- The choice from related pairs is related, if names tell the candidates of both alike apart. -/
theorem choose_rel (hsingle : ∀ c d, K c d → c.isSingle = d.isSingle)
    (hids : ∀ c d c' d', K c d → K c' d' → (c.id = c'.id ↔ d.id = d'.id)) (room : Nat)
    {seen seen' : List String} (hseen : ∀ c d, K c d → (c.id ∈ seen ↔ d.id ∈ seen'))
    {ps qs : List ScoredPair} (h : List.Forall₂ (PairLike K) ps qs) :
    List.Forall₂ (fun e e' => ProposalLike K e.proposal e'.proposal ∧ e.score = e'.score)
      (choose room seen ps) (choose room seen' qs) := by
  induction h generalizing room seen seen' with
  | nil => exact .nil
  | @cons p q ps qs hpq _ ih =>
    cases room with
    | zero =>
      rw [choose_zero, choose_zero]
      exact .nil
    | succ room =>
      have hprop := proposalOf_rel hsingle hpq
      cases hp : proposalOf p with
      | pair a b =>
        cases hq : proposalOf q with
        | single d => rw [hp, hq] at hprop; cases hprop
        | pair c d =>
          rw [choose_of_pair hp, choose_of_pair hq]
          exact .cons ⟨hprop, hpq.score⟩ (ih room hseen)
      | single c =>
        cases hq : proposalOf q with
        | pair a b => rw [hp, hq] at hprop; cases hprop
        | single d =>
          have hcd : K c d := by
            rw [hp, hq] at hprop
            cases hprop
            assumption
          by_cases hc : c.id ∈ seen
          · rw [choose_of_seen hp hc, choose_of_seen hq ((hseen c d hcd).mp hc)]
            exact ih (room + 1) hseen
          · rw [choose_of_new hp hc, choose_of_new hq fun hd => hc ((hseen c d hcd).mpr hd)]
            refine .cons ⟨hprop, hpq.score⟩ (ih room fun c' d' hcd' => ?_)
            rw [List.mem_cons, List.mem_cons, hids _ _ _ _ hcd' hcd, hseen c' d' hcd']

end

/-- Proposals that read the same: of the same kind and of the same runs, with equal scores. -/
structure ReadsLike (e e' : RankedProposal) : Prop where
  isPair : e.proposal.isPair = e'.proposal.isPair
  rendered : e.proposal.candidates.map Candidate.rendered =
    e'.proposal.candidates.map Candidate.rendered
  score : e.score = e'.score

/-- Rankings of candidates that rank alike read the same at every position. -/
theorem rankingOf_rel (hs : SameScoring settings settings') (ht : t.Distinct) (ht' : t'.Distinct)
    {cs ds : List Candidate} (hcs : Rankable cs) (hds : Rankable ds)
    (hleft : ∀ c ∈ cs, ∃ d ∈ ds, RanksLike t t' c d)
    (hright : ∀ d ∈ ds, ∃ c ∈ cs, RanksLike t t' c d) :
    List.Forall₂ ReadsLike (rankingOf settings cs).proposals (rankingOf settings' ds).proposals := by
  have hpair : ∀ a b c d, Twins t t' cs ds a c → Twins t t' cs ds b d →
      Option.Rel (PairLike (Twins t t' cs ds)) (pairOf? settings a b) (pairOf? settings' c d) :=
    fun _ _ _ _ ha hb => pairOf?_rel hs ht ht' (fun _ _ h => h.2.2)
      (fun c d h => ⟨hcs.occurs c h.1, hds.occurs d h.2.1⟩) ha hb
  have hpairs := pairsOf_rel hpair
    (sortCandidates_rel hcs.nodup_seq hds.nodup_seq hleft hright)
  have hsortedPairs : List.Forall₂ (PairLike (Twins t t' cs ds))
      (sortPairs (pairsOf settings (sortCandidates cs)))
      (sortPairs (pairsOf settings' (sortCandidates ds))) :=
    forall₂_mergeSort hpairs fun a a' b b' ha hb => by rw [ha.score, hb.score]
  have hchosen := choose_rel (fun _ _ h => h.2.2.isSingle_eq)
    (fun _ _ _ _ h h' => h.id_eq_iff hcs hds h') settings.maxProposals
    (fun _ _ _ => iff_of_false List.not_mem_nil List.not_mem_nil) hsortedPairs
  rw [rankingOf, rankingOf, ← hs.maxProposals]
  exact hchosen.imp fun _ _ he =>
    ⟨he.1.isPair_eq, he.1.rendered_eq fun _ _ h => h.2.2.rendered_eq, he.2⟩

end Ranking
end GrammarInduction
