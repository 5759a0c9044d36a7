import GrammarInduction.Proofs.Forest.Named
import GrammarInduction.Proofs.Forest.SeedShape
import GrammarInduction.Proofs.NameSupply.Growth

/-!
First forests are named: the name of a class stands for its token, and the name of a segment for
its text. Every name that is handed out on the way is new to the glossary.
-/
namespace GrammarInduction

open NameSupply

namespace Glossary

/-- The glossary can be continued below a bound so that something holds. -/
def GrowsTo (m : Glossary) (bound : Nat) (P : Glossary → Prop) : Prop :=
  ∃ m' : Glossary, m.Within m' ∧ m'.Below bound ∧ P m'

variable {m : Glossary} {bound : Nat} {P Q : Glossary → Prop}

lemma GrowsTo.refl (hm : m.Below bound) (h : P m) : m.GrowsTo bound P := ⟨m, .refl m, hm, h⟩

/-- What is continued twice is continued. -/
theorem GrowsTo.trans {bound' : Nat} (h : m.GrowsTo bound P)
    (hstep : ∀ m', m.Within m' → m'.Below bound → P m' → m'.GrowsTo bound' Q) :
    m.GrowsTo bound' Q := by
  obtain ⟨m', hw, hb, hp⟩ := h
  obtain ⟨m'', hw', hb', hq⟩ := hstep m' hw hb hp
  exact ⟨m'', hw.trans hw', hb', hq⟩

/-- A fresh name can stand for any text. -/
theorem growsTo_fresh {names : NameSupply} (hm : m.Below names.next)
    (hlt : names.fresh.2.next < wordMax) (text : String) :
    m.GrowsTo names.fresh.2.next fun m' => m' names.next = some text := by
  obtain ⟨-, hnext⟩ := next_fresh_of_lt hlt
  exact ⟨m.add names.next text, within_add (hm.eq_none (Nat.le_refl _)) text,
    hm.add (by omega) (by omega), add_self⟩

end Glossary

/-- Each of the tokens has a class whose name stands for it. -/
def Classified (names : NameSupply) (m : Glossary) (classes : List (String × String))
    (tokens : List String) : Prop :=
  ∀ token ∈ tokens, ∃ i, classes.lookup token = some (names.nameAt i) ∧ m i = some token

variable {names : NameSupply} {m : Glossary} {classes : List (String × String)}
  {tokens : List String}

lemma Classified.mono {m' : Glossary} (h : Classified names m classes tokens)
    (hm : m.Within m') : Classified names m' classes tokens := by
  intro token ht
  obtain ⟨i, hl, hi⟩ := h token ht
  exact ⟨i, hl, hm i token hi⟩

lemma Classified.named (h : Classified names m classes tokens) {token : String}
    (ht : token ∈ tokens) : (classNode classes token).Named names.nameAt m := by
  obtain ⟨i, hl, hi⟩ := h token ht
  rw [classNode, hl, Option.getD_some]
  exact .token hi

lemma growsTo_nameTokens (hm : m.Below names.next)
    (hlt : (nameTokens names tokens).2.next < wordMax) :
    m.GrowsTo (nameTokens names tokens).2.next fun m' =>
      Classified names m' (nameTokens names tokens).1 tokens := by
  induction tokens generalizing names m with
  | nil => exact .refl hm fun token ht => absurd ht List.not_mem_nil
  | cons token rest ih =>
    have hrest := leadsTo_nameTokens names.fresh.2 rest
    refine (Glossary.growsTo_fresh hm (hrest.lt_of_lt hlt) token).trans fun m' hw hb hi => ?_
    refine (ih hb hlt).trans fun m'' hw' hb' hclass => .refl hb' ?_
    intro other ho
    by_cases he : other = token
    · refine ⟨names.next, ?_, he ▸ hw' _ _ hi⟩
      rw [nameTokens, he]
      exact List.lookup_cons_self
    · obtain ⟨i, hl, hi⟩ := hclass other ((List.mem_cons.mp ho).resolve_left he)
      refine ⟨i, ?_, hi⟩
      rw [nameTokens, List.lookup_cons, beq_eq_false_iff_ne.mpr he]
      exact hl

namespace OpenSegments

def Named (name : Nat → String) (m : Glossary) (s : OpenSegments) : Prop :=
  (∀ n ∈ s.current, n.Named name m) ∧ ∀ ns ∈ s.outer, ∀ n ∈ ns, n.Named name m

variable {s : OpenSegments} {name : Nat → String}

/-- A segment that ends becomes a named node among those around it. -/
theorem growsTo_close (hm : m.Below names.next) (hlt : names.fresh.2.next < wordMax)
    {parent children : List Node} (hparent : ∀ n ∈ parent, n.Named names.nameAt m)
    (hchildren : ∀ n ∈ children, n.Named names.nameAt m) :
    m.GrowsTo names.fresh.2.next fun m' =>
      ∀ n ∈ parent ++ [.branch names.fresh.1 children], n.Named names.nameAt m' := by
  refine (Glossary.growsTo_fresh hm hlt (String.join (children.map Node.text))).trans
    fun m' hw hb hi => .refl hb ?_
  intro n hn
  rcases List.mem_append.mp hn with hn | hn
  · exact (hparent n hn).mono hw
  · rw [List.mem_singleton.mp hn]
    exact .group (fun c hc => (hchildren c hc).mono hw) hi

lemma growsTo_read (hs : s.Named names.nameAt m) (hm : m.Below names.next) {token : String}
    {leaf : Node} (hleaf : leaf.Named names.nameAt m)
    (hlt : (s.read names token leaf).2.next < wordMax) :
    m.GrowsTo (s.read names token leaf).2.next fun m' =>
      (s.read names token leaf).1.Named names.nameAt m' := by
  obtain ⟨current, outer⟩ := s
  unfold read at hlt ⊢
  by_cases hopen : opensSegment token = true
  · rw [if_pos hopen]
    exact .refl hm (All.add (All.begin hs) hleaf)
  · rw [if_neg hopen] at hlt ⊢
    by_cases hclose : closesSegment token = true
    · rw [if_pos hclose] at hlt ⊢
      cases outer with
      | nil => exact .refl hm (All.add hs hleaf)
      | cons parent outer =>
        obtain ⟨hparent, houter⟩ := List.forall_mem_cons.mp hs.2
        refine (growsTo_close hm hlt hparent (All.add hs hleaf).1).trans fun m' hw hb hall => ?_
        exact .refl hb ⟨hall, fun ns hns n hn => (houter ns hns n hn).mono hw⟩
    · rw [if_neg hclose]
      exact .refl hm (All.add hs hleaf)

lemma growsTo_finish {current : List Node} {outer : List (List Node)}
    (hs : (OpenSegments.mk current outer).Named names.nameAt m) (hm : m.Below names.next)
    (hlt : (finish current names outer).2.next < wordMax) :
    m.GrowsTo (finish current names outer).2.next fun m' =>
      ∀ n ∈ (finish current names outer).1, n.Named names.nameAt m' := by
  induction outer generalizing current names m with
  | nil => exact .refl hm hs.1
  | cons parent outer ih =>
    obtain ⟨hparent, houter⟩ := List.forall_mem_cons.mp hs.2
    have hfresh := (leadsTo_finish (parent ++ [.branch names.fresh.1 current]) names.fresh.2
      outer).lt_of_lt hlt
    refine (growsTo_close hm hfresh hparent hs.1).trans fun m' hw hb hall => ?_
    exact ih ⟨hall, fun ns hns n hn => (houter ns hns n hn).mono hw⟩ hb hlt

end OpenSegments

lemma growsTo_readTokens {s : OpenSegments} {known : List String} {start : NameSupply}
    (hstart : start.LeadsTo names) (hclass : Classified start m classes known)
    (htokens : ∀ token ∈ tokens, token ∈ known) (hs : s.Named names.nameAt m)
    (hm : m.Below names.next) (hlt : (readTokens classes s names tokens).2.next < wordMax) :
    m.GrowsTo (readTokens classes s names tokens).2.next fun m' =>
      (readTokens classes s names tokens).1.Named names.nameAt m' := by
  induction tokens generalizing s names m with
  | nil => exact .refl hm hs
  | cons token rest ih =>
    obtain ⟨htoken, hrest⟩ := List.forall_mem_cons.mp htokens
    have hleaf := hclass.named htoken
    rw [← hstart.nameAt_eq] at hleaf
    have hread := s.leadsTo_read names token (classNode classes token)
    have hnext := leadsTo_readTokens classes (s.read names token (classNode classes token)).1
      (s.read names token (classNode classes token)).2 rest
    refine (OpenSegments.growsTo_read hs hm hleaf (hnext.lt_of_lt hlt)).trans
      fun m' hw hb hs' => ?_
    rw [← hread.nameAt_eq] at hs' ⊢
    exact ih (hstart.trans hread) (hclass.mono hw) hrest hs' hb hlt

lemma growsTo_seedTree {known : List String} {start : NameSupply} (hstart : start.LeadsTo names)
    (hclass : Classified start m classes known) (htokens : ∀ token ∈ tokens, token ∈ known)
    (hm : m.Below names.next) (hlt : (seedTree classes names tokens).2.next < wordMax) :
    m.GrowsTo (seedTree classes names tokens).2.next fun m' =>
      ∃ cs, (seedTree classes names tokens).1 = .branch rootLabel cs ∧
        ∀ c ∈ cs, c.Named names.nameAt m' := by
  have hread := leadsTo_readTokens classes {} names tokens
  have hfinish := OpenSegments.leadsTo_finish (readTokens classes {} names tokens).1.current
    (readTokens classes {} names tokens).2 (readTokens classes {} names tokens).1.outer
  refine (growsTo_readTokens hstart hclass htokens OpenSegments.all_empty hm
    (hfinish.lt_of_lt hlt)).trans fun m' hw hb hs => ?_
  rw [← hread.nameAt_eq] at hs ⊢
  exact (OpenSegments.growsTo_finish hs hb hlt).trans fun m'' hw' hb' hall =>
    .refl hb' ⟨_, rfl, hall⟩

lemma growsTo_seedTrees {known : List String} {start : NameSupply} {examples : List (List String)}
    (hstart : start.LeadsTo names) (hclass : Classified start m classes known)
    (hexamples : ∀ tokens ∈ examples, ∀ token ∈ tokens, token ∈ known) (hm : m.Below names.next)
    (hlt : (seedTrees classes names examples).2.next < wordMax) :
    m.GrowsTo (seedTrees classes names examples).2.next fun m' =>
      (seedTrees classes names examples).1.Named names.nameAt m' := by
  induction examples generalizing names m with
  | nil => exact .refl hm fun _ hn => absurd hn List.not_mem_nil
  | cons tokens rest ih =>
    obtain ⟨htokens, hrest⟩ := List.forall_mem_cons.mp hexamples
    have htree := leadsTo_seedTree classes names tokens
    have hnext := leadsTo_seedTrees classes (seedTree classes names tokens).2 rest
    refine (growsTo_seedTree hstart hclass htokens hm (hnext.lt_of_lt hlt)).trans
      fun m' hw hb hroot => ?_
    refine (ih (hstart.trans htree) (hclass.mono hw) hrest hb hlt).trans
      fun m'' hw' hb' hall => .refl hb' ?_
    rw [htree.nameAt_eq] at hall
    obtain ⟨cs, heq, hcs⟩ := hroot
    exact List.forall_mem_cons.mpr ⟨⟨cs, heq, fun c hc => (hcs c hc).mono hw'⟩, hall⟩

lemma mem_distinctTokens {token : String} : token ∈ distinctTokens tokens ↔ token ∈ tokens := by
  rw [distinctTokens, (List.mergeSort_perm _ _).mem_iff, List.mem_eraseDups]

lemma growsTo_seedForest {examples : List (List String)} (hm : m.Below names.next)
    (hlt : (seedForest names examples).2.next < wordMax) :
    m.GrowsTo (seedForest names examples).2.next fun m' =>
      (seedForest names examples).1.Named names.nameAt m' := by
  have htokens := leadsTo_nameTokens names (distinctTokens examples.flatten)
  have htrees := leadsTo_seedTrees (nameTokens names (distinctTokens examples.flatten)).1
    (nameTokens names (distinctTokens examples.flatten)).2 examples
  refine (growsTo_nameTokens hm (htrees.lt_of_lt hlt)).trans fun m' hw hb hclass => ?_
  rw [← htokens.nameAt_eq]
  refine growsTo_seedTrees htokens hclass ?_ hb hlt
  intro tokens hts token ht
  exact mem_distinctTokens.mpr (List.mem_flatten_of_mem hts ht)

end GrammarInduction
