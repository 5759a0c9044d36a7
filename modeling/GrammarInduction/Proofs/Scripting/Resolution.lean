import GrammarInduction.Proofs.Scripting.Histories
import GrammarInduction.Proofs.Scripting.Values

/-!
What a script's names stand for. As long as the counter of names stays below its limit, a name
stands for the candidate that the last successful proposal kept under it, and for nothing else:
not for one of an earlier proposal, and not for one that was dropped.
-/
namespace GrammarInduction
namespace Scripting

open ScriptSession

/-- Candidates with distinct names are known by them, and what was known by others stays known. -/
theorem get?_foldl_insert {cs : List Candidate} (hcs : (cs.map Candidate.id).Nodup)
    (known : Catalogue String Candidate) {id : String} {c : Candidate} :
    (cs.foldl (fun known c => known.insert c.id c) known).get? id = some c ↔
      (c ∈ cs ∧ c.id = id) ∨ (id ∉ cs.map Candidate.id ∧ known.get? id = some c) := by
  induction cs generalizing known with
  | nil => simp
  | cons d ds ih =>
    obtain ⟨hd, hds⟩ := List.nodup_cons.mp hcs
    rw [List.foldl_cons, ih hds, Catalogue.get?_insert, List.map_cons]
    by_cases hid : id = d.id
    · subst hid
      have hne : ∀ c ∈ ds, c.id ≠ d.id := fun c hc he => hd (he ▸ List.mem_map_of_mem hc)
      constructor
      · rintro (⟨hc, he⟩ | ⟨-, he⟩)
        · exact absurd he (hne c hc)
        · rw [if_pos rfl] at he
          exact .inl ⟨Option.some.inj he ▸ List.mem_cons_self, by rw [Option.some.inj he]⟩
      · rintro (⟨hc, he⟩ | ⟨hnot, -⟩)
        · rcases List.mem_cons.mp hc with rfl | hc
          · exact .inr ⟨hd, if_pos rfl⟩
          · exact absurd he (hne c hc)
        · exact absurd List.mem_cons_self hnot
    · rw [if_neg hid]
      have hnot : id ∉ d.id :: ds.map Candidate.id ↔ id ∉ ds.map Candidate.id := by simp [hid]
      rw [hnot]
      refine or_congr_left (and_congr_left fun he => ⟨List.mem_cons_of_mem d, fun hc => ?_⟩)
      rcases List.mem_cons.mp hc with rfl | hc
      · exact absurd he.symm hid
      · exact hc

section

variable {known : Catalogue String Candidate} {ids : List String} {cs : List Candidate}

/-- Names that are known are applied as their candidates. -/
theorem applyKnown_eq (h : List.Forall₂ (fun id c => known.get? id = some c) ids cs)
    (trees : Forest) :
    applyKnown known trees ids = (trees.applyCandidates cs).mapError .aborted := by
  induction h generalizing trees with
  | nil => rfl
  | @cons id c ids cs hc _ ih =>
    rw [applyKnown, hc, Forest.applyCandidates]
    dsimp only
    cases trees.applyCandidate c with
    | error fault => rfl
    | ok out => exact ih out

/-- A name that is not known cannot be applied. -/
theorem applyKnown_error {id : String} (hid : id ∈ ids) (h : known.get? id = none)
    (trees : Forest) : ∃ e, applyKnown known trees ids = .error e := by
  induction ids generalizing trees with
  | nil => simp at hid
  | cons id' ids ih =>
    rw [applyKnown]
    cases hc : known.get? id' with
    | none => exact ⟨_, rfl⟩
    | some c =>
      have hid' : id ∈ ids := by
        rcases List.mem_cons.mp hid with rfl | hid'
        · cases h.symm.trans hc
        · exact hid'
      dsimp only
      cases trees.applyCandidate c with
      | error fault => exact ⟨_, rfl⟩
      | ok out => exact ih hid' out

lemma exists_forall₂ {R : String → Candidate → Prop} (h : ∀ id ∈ ids, ∃ c, R id c) :
    ∃ cs, List.Forall₂ R ids cs ∧ ∀ c ∈ cs, ∃ id, R id c := by
  induction ids with
  | nil => exact ⟨[], .nil, nofun⟩
  | cons id ids ih =>
    obtain ⟨⟨c, hc⟩, hids⟩ := List.forall_mem_cons.mp h
    obtain ⟨cs, hcs, hall⟩ := ih hids
    exact ⟨c :: cs, .cons hc hcs, List.forall_mem_cons.mpr ⟨⟨id, hc⟩, hall⟩⟩

/-- What crosses over to an application is what is applied. -/
theorem apply_ofForest (s : ScriptSession) {trees : Forest} (htrees : ∀ n ∈ trees, n.Proper)
    (ids : List String) :
    s.apply (.ofForest trees) (.ofTexts ids) =
      (applyKnown s.known trees ids).map Value.ofForest := by
  rw [apply, Value.toForest_ofForest htrees, Value.toTexts_ofTexts]
  rfl

end

def Ends (result : Except CallError Value) : Prop := result ≠ .error (.aborted .endlessCollapse)

instance (result : Except CallError Value) : Decidable (Ends result) :=
  match result with
  | .ok _ => .isTrue nofun
  | .error e =>
    if h : e = .aborted .endlessCollapse then .isFalse fun hends => hends (congrArg _ h)
    else .isTrue fun he => h (Except.error.inj he)

lemma ScriptSession.start_eq_ok_iff {settings : Settings} {s : ScriptSession} :
    start settings = .ok s ↔
      ∃ session, Session.start settings {} = .ok session ∧ s = { session } := by
  rw [start, Except.bind_eq_ok_iff]
  refine exists_congr fun session => and_congr Except.mapError_eq_ok_iff ⟨fun h => ?_, fun h => ?_⟩
  · exact (Except.ok.inj h).symm
  · exact congrArg Except.ok h.symm

/-- A session as a script starts it: from a call, or with any settings that the check lets pass, as
those of a document are. -/
def Started (s : ScriptSession) : Prop :=
  (∃ c, ofCall c = .ok s) ∨ ∃ settings, start settings = .ok s

/-- Sessions that documents start are among these, whatever the reader makes of a document. -/
theorem started_of_ofDocument {source : Value} {s : ScriptSession} (h : ofDocument source = .ok s) :
    Started s := by
  obtain ⟨text, -, h⟩ := Except.bind_eq_ok_iff.mp h
  obtain ⟨settings, -, h⟩ := Except.bind_eq_ok_iff.mp h
  exact .inr ⟨settings, h⟩

/-- However a script starts a session, its settings pass the check first. -/
theorem Started.exists_start {s : ScriptSession} (h : Started s) :
    ∃ settings session, Session.start settings {} = .ok session ∧ s = { session } := by
  rcases h with ⟨c, h⟩ | ⟨settings, h⟩
  · obtain ⟨settings, -, h⟩ := Except.bind_eq_ok_iff.mp h
    exact ⟨settings, start_eq_ok_iff.mp h⟩
  · exact ⟨settings, start_eq_ok_iff.mp h⟩

/-- A session begins without known candidates and with the first name. -/
theorem Started.empty {s : ScriptSession} (h : Started s) :
    s.known = .empty ∧ s.session.tables.names.next = 0 := by
  obtain ⟨settings, session, hstart, rfl⟩ := h.exists_start
  obtain ⟨-, rfl⟩ := Session.start_eq_ok_iff.mp hstart
  exact ⟨rfl, rfl⟩

namespace History

variable {start : NameSupply} {h : History}

/-- All that was ever found has names of its own. -/
theorem Consistent.nodup (hc : h.Consistent start) (hstart : start.next ≤ wordMax)
    (hbound : h.script.session.tables.names.next < wordMax) :
    (h.found.map Candidate.id).Nodup := by
  obtain ⟨names, hout, hsub⟩ := hc.names
  have hnext := hout.next_eq hstart
  exact ((hout.nodup_iff hstart).mpr (by omega)).sublist hsub

/-- A known name is that of a candidate that was kept. -/
theorem Consistent.get?_known_iff (hc : h.Consistent start)
    (hnodup : (h.found.map Candidate.id).Nodup) {id : String} {c : Candidate} :
    h.script.known.get? id = some c ↔ c ∈ h.kept ∧ c.id = id := by
  have hkept := hnodup.sublist (hc.kept_found.map Candidate.id)
  rw [hc.known]
  unfold kept at hkept ⊢
  split
  · rename_i survey ranking hlast
    rw [hlast] at hkept
    rw [knownBy, get?_foldl_insert hkept]
    simp
  · simp

/-- Names of kept candidates are applied as these candidates. -/
theorem Consistent.apply_eq (hc : h.Consistent start) (hnodup : (h.found.map Candidate.id).Nodup)
    {trees : Forest} (htrees : ∀ n ∈ trees, n.Proper) {ids : List String} {cs : List Candidate}
    (hids : List.Forall₂ (fun id c => c ∈ h.kept ∧ c.id = id) ids cs) :
    h.script.apply (.ofForest trees) (.ofTexts ids) =
      ((trees.applyCandidates cs).mapError .aborted).map Value.ofForest := by
  rw [apply_ofForest _ htrees, applyKnown_eq (hids.imp fun id c => (hc.get?_known_iff hnodup).mpr)]

/-- Where an application of kept candidates comes to an end, it succeeds. -/
theorem Consistent.exists_apply_eq_ok (hc : h.Consistent start)
    (hnodup : (h.found.map Candidate.id).Nodup) {trees : Forest} (htrees : ∀ n ∈ trees, n.Proper)
    {ids : List String} (hids : ∀ id ∈ ids, id ∈ h.kept.map Candidate.id)
    (hends : Ends (h.script.apply (.ofForest trees) (.ofTexts ids))) :
    ∃ cs out, List.Forall₂ (fun id c => c ∈ h.kept ∧ c.id = id) ids cs ∧
      trees.applyAll (cs.map Candidate.grouping) = .ok out ∧
      h.script.apply (.ofForest trees) (.ofTexts ids) = .ok (.ofForest out) := by
  obtain ⟨cs, hcs, hall⟩ := exists_forall₂ fun id hid => List.mem_map.mp (hids id hid)
  have happly := hc.apply_eq hnodup htrees hcs
  rw [Forest.applyCandidates_eq] at happly
  refine ⟨cs, ?_⟩
  cases hout : trees.applyAll (cs.map Candidate.grouping) with
  | ok out =>
    rw [hout] at happly
    exact ⟨out, hcs, rfl, happly⟩
  | error fault =>
    rw [hout] at happly
    have hpatterns : ∀ g ∈ cs.map Candidate.grouping, g.pattern ≠ [] := by
      intro g hg
      obtain ⟨c, hmem, rfl⟩ := List.mem_map.mp hg
      obtain ⟨id, hkept, -⟩ := hall c hmem
      exact Candidate.pattern_ne_nil (hc.elements c hkept)
    obtain rfl := Forest.eq_endlessCollapse_of_applyAll hpatterns hout
    exact absurd happly hends

/-- What names stand for after a history. -/
structure Resolves (h : History) : Prop where
  /-- An application that comes to an end fails exactly where no kept candidate has a name. -/
  fails_iff : ∀ trees : Forest, (∀ n ∈ trees, n.Proper) → ∀ ids : List String,
    Ends (h.script.apply (.ofForest trees) (.ofTexts ids)) →
      ((∃ e, h.script.apply (.ofForest trees) (.ofTexts ids) = .error e) ↔
        ∃ id ∈ ids, id ∉ h.kept.map Candidate.id)
  /-- Otherwise it applies the groupings of the kept candidates one after the other. -/
  applies : ∀ trees : Forest, (∀ n ∈ trees, n.Proper) → ∀ ids : List String,
    Ends (h.script.apply (.ofForest trees) (.ofTexts ids)) →
      (∀ id ∈ ids, id ∈ h.kept.map Candidate.id) →
        ∃ cs out, List.Forall₂ (fun id c => c ∈ h.kept ∧ c.id = id) ids cs ∧
          trees.applyAll (cs.map Candidate.grouping) = .ok out ∧
          h.script.apply (.ofForest trees) (.ofTexts ids) = .ok (.ofForest out)
  /-- The names that a proposal lists apply that proposal. -/
  proposals : ∀ survey ranking, h.last = some (survey, ranking) → ∀ e ∈ ranking.proposals,
    ∀ trees : Forest, (∀ n ∈ trees, n.Proper) →
      h.script.apply (.ofForest trees) (.ofTexts (ProposalView.of e).ids) =
        ((trees.applyProposal e.proposal).mapError .aborted).map Value.ofForest
  /-- A proposal that succeeds is the last one. -/
  succeeds : ∀ trees views, (h.script.propose trees).1 = .ok views →
    ∃ survey ranking, (h.next (.propose trees)).last = some (survey, ranking) ∧
      views = ranking.proposals.map ProposalView.of
  /-- A proposal that fails leaves all names as they are. -/
  keeps : ∀ trees e, (h.script.propose trees).1 = .error e →
    (h.next (.propose trees)).kept = h.kept ∧
      ∀ forest ids, (h.next (.propose trees)).script.apply forest ids = h.script.apply forest ids
  /-- A name that some candidate was ever found with stands for no other one. -/
  unique : ∀ c ∈ h.found, ∀ d ∈ h.kept, d.id = c.id → d = c

lemma Consistent.resolves (hc : h.Consistent start)
    (hnodup : (h.found.map Candidate.id).Nodup) : h.Resolves := by
  refine ⟨fun trees htrees ids hends => ?_, fun trees htrees ids hends hids =>
    hc.exists_apply_eq_ok hnodup htrees hids hends, ?_, ?_, ?_, ?_⟩
  · constructor
    · rintro ⟨e, he⟩
      by_contra hnone
      obtain ⟨cs, out, -, -, hok⟩ := hc.exists_apply_eq_ok hnodup htrees
        (fun id hid => by_contra fun hnot => hnone ⟨id, hid, hnot⟩) hends
      cases he.symm.trans hok
    · rintro ⟨id, hid, hnot⟩
      have hunknown : h.script.known.get? id = none := by
        rw [Option.eq_none_iff_forall_ne_some]
        intro c hget
        obtain ⟨hkept, rfl⟩ := (hc.get?_known_iff hnodup).mp hget
        exact hnot (List.mem_map_of_mem hkept)
      obtain ⟨e, he⟩ := applyKnown_error hid hunknown trees
      rw [apply_ofForest _ htrees, he]
      exact ⟨e, rfl⟩
  · intro survey ranking hlast e he trees htrees
    apply hc.apply_eq hnodup htrees
    have hall := hc.ranked survey ranking hlast e he
    change List.Forall₂ _ (e.proposal.candidates.map Candidate.id) e.proposal.candidates
    rw [List.forall₂_map_left_iff, List.forall₂_same]
    exact fun c hmem => ⟨hall c hmem, rfl⟩
  · intro trees views hviews
    obtain ⟨survey, ranking, hout, rfl⟩ := h.script.propose_eq_ok_iff.mp hviews
    exact ⟨survey, ranking, by rw [last_next_propose, hout, Option.some_or], rfl⟩
  · intro trees e he
    have hout : h.script.outcome? trees = none := by
      rw [Option.eq_none_iff_forall_ne_some]
      rintro ⟨survey, ranking⟩ hsome
      have hok := h.script.propose_eq_ok_iff.mpr ⟨survey, ranking, hsome, rfl⟩
      cases hok.symm.trans he
    have hknown := h.script.known_propose trees
    have hlast := h.last_next_propose trees
    rw [hout] at hknown
    rw [hout] at hlast
    have hkept : (h.next (.propose trees)).kept = h.kept := by rw [kept, hlast, kept]; rfl
    refine ⟨hkept, fun forest ids => ?_⟩
    rw [apply, apply, known_next_propose, hknown]
  · intro c hmem d hkept hid
    exact List.inj_on_of_nodup_map hnodup (hc.kept_found.subset hkept) hmem hid

end History

/-- Whatever a script calls in whatever order, while fewer names were handed out than there are,
names stand for the candidates of the last successful proposal since the last reset. -/
theorem names_resolve {s : ScriptSession} (hs : Started s) (requests : List Request)
    (hbound : (History.of s requests).script.session.tables.names.next < wordMax) :
    (History.of s requests).Resolves := by
  obtain ⟨hknown, hnext⟩ := hs.empty
  have hc := History.consistent_of hknown requests
  have hstart : s.session.tables.names.next ≤ wordMax := by
    rw [hnext]
    exact Nat.zero_le _
  exact hc.resolves (hc.nodup hstart hbound)

def usualScript : ScriptSession := { session := {} }

/-- A tree with a run that is kept, and one whose whole child list is dropped. -/
def openForest : Forest :=
  [.branch "START" [.terminal "a", .terminal "b", .terminal "("],
    .branch "START" [.terminal "c", .terminal "d"]]

/-- A proposal that finds two candidates and keeps one of them, and then one that fails. -/
def twoProposals : List Request := [.propose (.ofForest openForest), .propose .nothing]

lemma proper_openForest : ∀ n ∈ openForest, n.Proper := by
  intro n hn
  rcases List.mem_cons.mp hn with rfl | hn
  · exact .flat "START" ["a", "b", "("]
  · rw [List.mem_singleton.mp hn]
    exact .flat "START" ["c", "d"]

/-- The name of the candidate that was dropped stands for nothing, and the other one is applied. -/
theorem names_resolve_twoProposals :
    Started usualScript ∧
      (History.of usualScript twoProposals).script.session.tables.names.next < wordMax ∧
      (∃ e, (History.of usualScript twoProposals).script.apply (.ofForest openForest)
        (.ofTexts ["t1"]) = .error e) ∧
      ∃ cs out, List.Forall₂ (fun id c => c ∈ (History.of usualScript twoProposals).kept ∧
          c.id = id) ["t0"] cs ∧
        openForest.applyAll (cs.map Candidate.grouping) = .ok out ∧
        (History.of usualScript twoProposals).script.apply (.ofForest openForest)
          (.ofTexts ["t0"]) = .ok (.ofForest out) := by
  have hstarted : Started usualScript := .inl ⟨{}, rfl⟩
  have hbound : (History.of usualScript twoProposals).script.session.tables.names.next < wordMax :=
    by decide +kernel
  have hresolves := names_resolve hstarted twoProposals hbound
  have hfails := hresolves.fails_iff openForest proper_openForest ["t1"] (by decide +kernel)
  have hkept : ∀ id ∈ ["t0"], id ∈ (History.of usualScript twoProposals).kept.map Candidate.id := by
    decide +kernel
  exact ⟨hstarted, hbound, hfails.mpr ⟨"t1", by simp, by decide +kernel⟩,
    hresolves.applies openForest proper_openForest ["t0"] (by decide +kernel) hkept⟩

end Scripting
end GrammarInduction
