import GrammarInduction.Proofs.Forest.Leaves
import GrammarInduction.Proofs.Session.Histories
import GrammarInduction.Scripting.Session

/-!
Samples stay what they are. However many groupings are applied to a forest, by themselves, as
candidates, as proposals or by a script, each of its trees keeps its root and its terminals.
-/
namespace GrammarInduction

namespace Forest

def applyAll (trees : Forest) : List Grouping → Except Fault Forest
  | [] => .ok trees
  | g :: gs => do
    let trees ← trees.apply g
    trees.applyAll gs

variable {trees out : Forest}

lemma sameSample_applyAll {gs : List Grouping} (h : trees.applyAll gs = .ok out) :
    trees.SameSample out := by
  induction gs generalizing trees with
  | nil => exact Except.ok.inj h ▸ .refl trees
  | cons g gs ih =>
    obtain ⟨mid, hmid, hout⟩ := Except.bind_eq_ok_iff.mp h
    exact (sameSample_apply hmid).trans (ih hout)

/-- Candidates are applied as their groupings. -/
theorem applyCandidates_eq (trees : Forest) (cs : List Candidate) :
    trees.applyCandidates cs = trees.applyAll (cs.map Candidate.grouping) := by
  induction cs generalizing trees with
  | nil => rfl
  | cons c cs ih => simp only [applyCandidates, ih, applyCandidate, List.map_cons, applyAll]

lemma sameSample_applyCandidates {cs : List Candidate} (h : trees.applyCandidates cs = .ok out) :
    trees.SameSample out :=
  sameSample_applyAll (applyCandidates_eq trees cs ▸ h)

end Forest

namespace Scripting

open ScriptSession

/-- Known candidates are applied as their groupings. -/
theorem exists_applyAll_of_applyKnown {known : Catalogue String Candidate} {trees out : Forest}
    {ids : List String} (h : applyKnown known trees ids = .ok out) :
    ∃ gs, trees.applyAll gs = .ok out := by
  induction ids generalizing trees with
  | nil => exact ⟨[], congrArg _ (Except.ok.inj h)⟩
  | cons id ids ih =>
    rw [applyKnown] at h
    cases hc : known.get? id with
    | none => simp [hc] at h
    | some c =>
      rw [hc] at h
      obtain ⟨mid, hmid, hout⟩ := Except.bind_eq_ok_iff.mp h
      obtain ⟨gs, hgs⟩ := ih hout
      rw [Except.mapError_eq_ok_iff] at hmid
      refine ⟨c.grouping :: gs, ?_⟩
      rw [Forest.applyAll, Except.bind_eq_ok_iff]
      exact ⟨mid, hmid, hgs⟩

end Scripting

open Scripting

/-- However groupings are applied and however they are named, every tree keeps its root and its
terminals, and so its text. -/
theorem groupings_keep_sample (trees : Forest) :
    (∀ gs out, trees.applyAll gs = .ok out → trees.SameSample out) ∧
      (∀ c out, trees.applyCandidate c = .ok out → trees.SameSample out) ∧
      (∀ p out, trees.applyProposal p = .ok out → trees.SameSample out) ∧
      ∀ (s : ScriptSession) (v ids w : Value), v.toForest = .ok trees → s.apply v ids = .ok w →
        ∃ out, w = .ofForest out ∧ trees.SameSample out := by
  refine ⟨fun _ _ h => Forest.sameSample_applyAll h, fun _ _ h => Forest.sameSample_apply h,
    fun _ _ h => Forest.sameSample_applyCandidates h, fun s v ids w hv h => ?_⟩
  obtain ⟨before, hbefore, h⟩ := Except.bind_eq_ok_iff.mp h
  obtain rfl := Except.ok.inj (hbefore.symm.trans hv)
  obtain ⟨names, -, h⟩ := Except.bind_eq_ok_iff.mp h
  obtain ⟨out, hout, h⟩ := Except.bind_eq_ok_iff.mp h
  obtain ⟨gs, hgs⟩ := exists_applyAll_of_applyKnown hout
  exact ⟨out, (Except.ok.inj h).symm, Forest.sameSample_applyAll hgs⟩

/-- One tree that holds a run of two terminals twice. -/
def repeatedRun : Forest :=
  [.branch "START" [.terminal "a", .terminal "b", .terminal "a", .terminal "b"]]

/-- A candidate of the run, with a label of the run for its name. -/
def repeatedCandidate : Candidate :=
  { id := "a", elements := [.terminal "a", .terminal "b"], depth := 0 }

/-- A candidate of two nodes that carry this name. -/
def renamedCandidate : Candidate :=
  { id := "t1", elements := [.terminal "a", .terminal "a"], depth := 0 }

/-- The tree after both candidates. -/
def bracketedRun : Forest :=
  [.branch "START" [.branch "t1" [.branch "a" [.terminal "a", .terminal "b"],
    .branch "a" [.terminal "a", .terminal "b"]]]]

/-- The tree after the first candidate. -/
def halfBracketedRun : Forest :=
  [.branch "START" [.branch "a" [.terminal "a", .terminal "b"],
    .branch "a" [.terminal "a", .terminal "b"]]]

/-- A script's session that knows the first candidate. -/
def repeatedSession : ScriptSession :=
  { session := {}, known := Catalogue.empty.insert "a" repeatedCandidate }

/-- Both candidates together, the first one alone, and the first one by a script. -/
theorem groupings_keep_sample_repeatedRun :
    (repeatedRun.applyAll [repeatedCandidate.grouping, renamedCandidate.grouping] =
        .ok bracketedRun ∧ repeatedRun.SameSample bracketedRun) ∧
      (repeatedRun.applyCandidate repeatedCandidate = .ok halfBracketedRun ∧
        repeatedRun.SameSample halfBracketedRun) ∧
      (repeatedRun.applyProposal (.pair repeatedCandidate renamedCandidate) = .ok bracketedRun ∧
        repeatedRun.SameSample bracketedRun) ∧
      (Value.ofForest repeatedRun).toForest = .ok repeatedRun ∧
      repeatedSession.apply (.ofForest repeatedRun) (.list [.text "a"]) =
        .ok (.ofForest halfBracketedRun) ∧
      ∃ out, .ofForest halfBracketedRun = Value.ofForest out ∧ repeatedRun.SameSample out := by
  obtain ⟨hall, hcandidate, hproposal, hscript⟩ := groupings_keep_sample repeatedRun
  have hgroupings : repeatedRun.applyAll [repeatedCandidate.grouping, renamedCandidate.grouping] =
      .ok bracketedRun := rfl
  have hfirst : repeatedRun.applyCandidate repeatedCandidate = .ok halfBracketedRun := rfl
  have hpair : repeatedRun.applyProposal (.pair repeatedCandidate renamedCandidate) =
      .ok bracketedRun := rfl
  have hknown : repeatedSession.apply (.ofForest repeatedRun) (.list [.text "a"]) =
      .ok (.ofForest halfBracketedRun) := rfl
  exact ⟨⟨hgroupings, hall _ _ hgroupings⟩, ⟨hfirst, hcandidate _ _ hfirst⟩,
    ⟨hpair, hproposal _ _ hpair⟩, rfl, hknown, hscript _ _ _ _ rfl hknown⟩

end GrammarInduction
