import GrammarInduction.Proofs.Scripting.Resolution
import GrammarInduction.Proofs.Session.Validity

/-!
The settings of a script's session. However it is started and whatever is called, also with values
that are no bounds at all, the settings stay valid and no proposal is refused.
-/
namespace GrammarInduction
namespace Scripting

namespace Value

variable {refusal : Refusal}

mutual
theorem toNode_ne_refused (v : Value) : toNode v ≠ .error (.refused refusal) := by
  intro h
  unfold toNode at h
  split at h
  · rename_i l t children
    rcases Except.bind_eq_error_iff.mp h with h | ⟨cs, -, h⟩
    · exact toForest_ne_refused children h
    · split at h <;> cases h
  · cases h
/-- A value that is no forest is not let in, which is no refusal of settings. -/
theorem toForest_ne_refused (v : Value) : v.toForest ≠ .error (.refused refusal) := by
  intro h
  unfold toForest at h
  split at h
  · rename_i vs
    exact toNodes_ne_refused vs h
  · rename_i vs
    exact toNodes_ne_refused vs h
  · cases h
theorem toNodes_ne_refused (vs : List Value) : toNodes vs ≠ .error (.refused refusal) := by
  cases vs with
  | nil => exact nofun
  | cons v vs =>
    intro h
    rw [toNodes] at h
    rcases Except.bind_eq_error_iff.mp h with h | ⟨n, -, h⟩
    · exact toNode_ne_refused v h
    · rcases Except.bind_eq_error_iff.mp h with h | ⟨ns, -, h⟩
      · exact toNodes_ne_refused vs h
      · cases h
end

end Value

namespace ScriptSession

variable {s : ScriptSession}

/-- Whatever is called, valid settings stay valid. -/
theorem valid_after (h : s.session.settings.Valid) (request : Request) :
    (s.after request).session.settings.Valid := by
  cases request with
  | seed examples =>
    rw [after, seed]
    cases examples.toTextLists <;> exact h
  | propose trees =>
    rw [after]
    rcases s.propose_cases trees with ⟨e, -, -, heq⟩ | ⟨forest, e, -, -, heq⟩ |
      ⟨forest, survey, ranking, session, session', -, hsurvey, hrank, -, heq⟩
    · rw [heq]
      exact h
    · rw [heq]
      exact h
    · obtain ⟨t, -, rfl⟩ := Session.survey_eq_ok_iff.mp hsurvey
      obtain ⟨memo, -, rfl⟩ := Session.rank_eq_ok_iff.mp hrank
      rw [heq]
      exact h
  | setBounds minLen maxLen =>
    rw [after]
    split
    · rename_i s' hs
      obtain ⟨lo, hi, -, -, hv, rfl⟩ := setBounds_eq_ok_iff.mp hs
      exact hv
    · exact h
  | apply | clearMemo | reset => exact h

lemma valid_of (h : s.session.settings.Valid) (requests : List Request) :
    (History.of s requests).script.session.settings.Valid :=
  History.of_induct (P := fun h => h.script.session.settings.Valid) h
    (fun _ request hv => valid_after hv request) requests

lemma propose_ne_refused (h : s.session.settings.Valid) (trees : Value) (refusal : Refusal) :
    (s.propose trees).1 ≠ .error (.refused refusal) := by
  intro hr
  unfold propose at hr
  split at hr
  · rename_i e htrees
    obtain rfl := Except.error.inj hr
    exact Value.toForest_ne_refused trees htrees
  · rename_i forest _
    unfold proposeForest at hr
    split at hr
    · rename_i refusal' session hsurvey
      exact (Session.guarded_of_valid h).accepts forest refusal' (congrArg Prod.fst hsurvey)
    · cases hr
    · split at hr <;> cases hr

/-- What a script's session with valid settings guards. -/
structure Guarded (s : ScriptSession) : Prop where
  session : s.session.Guarded
  /-- No proposal is refused. -/
  accepts : ∀ trees refusal, (s.propose trees).1 ≠ .error (.refused refusal)
  /-- Numbers that fit each other become the bounds, and nothing else changes. -/
  changes : ∀ minLen maxLen lo hi, minLen.toNat = .ok lo → maxLen.toNat = .ok hi →
    1 ≤ lo → lo ≤ hi →
    s.setBounds minLen maxLen = .ok { s with session := { s.session with
      settings := { s.session.settings with minLen := lo, maxLen := hi } } }
  /-- With all other values the call fails, and nothing changes at all. -/
  refuses : ∀ minLen maxLen,
    (¬∃ lo hi, minLen.toNat = .ok lo ∧ maxLen.toNat = .ok hi ∧ 1 ≤ lo ∧ lo ≤ hi) →
    (∃ e, s.setBounds minLen maxLen = .error e) ∧ s.after (.setBounds minLen maxLen) = s

lemma guarded_of_valid (h : s.session.settings.Valid) : s.Guarded where
  session := Session.guarded_of_valid h
  accepts := propose_ne_refused h
  changes minLen maxLen lo hi hlo hhi hpos hle :=
    setBounds_eq_ok_iff.mpr ⟨lo, hi, hlo, hhi, h.bounds_iff.mpr ⟨hpos, hle⟩, rfl⟩
  refuses minLen maxLen hb := by
    cases hs : s.setBounds minLen maxLen with
    | error e => exact ⟨⟨e, rfl⟩, by rw [after, hs]⟩
    | ok s' =>
      obtain ⟨lo, hi, hlo, hhi, hv, -⟩ := setBounds_eq_ok_iff.mp hs
      exact absurd ⟨lo, hi, hlo, hhi, h.bounds_iff.mp hv⟩ hb

end ScriptSession

/-- However a session is started and whatever is asked of it, its settings stay valid: no survey of
it is refused, and bounds that do not fit leave it as it was. Invalid settings are refused by the
survey itself, which then takes no symbol and no name. -/
theorem settings_stay_valid :
    (∀ settings names s, Session.start settings names = .ok s →
        ∀ ops, (s.afterAll ops).Guarded) ∧
      (∀ s, Started s → ∀ requests, (History.of s requests).script.Guarded) ∧
      ∀ settings : Settings, ¬settings.Valid →
        ∃ violation, settings.violation? = some violation ∧ ∀ trees tables,
          Survey.ofForest settings trees tables =
            (.error (.refused (.invalidSettings violation)), tables) := by
  refine ⟨fun settings names s hstart ops => ?_, fun s hs requests => ?_,
    fun settings => Survey.ofForest_of_not_valid⟩
  · obtain ⟨hv, rfl⟩ := Session.start_eq_ok_iff.mp hstart
    exact Session.guarded_of_valid (Session.valid_afterAll hv ops)
  · obtain ⟨settings, session, hstart, rfl⟩ := hs.exists_start
    obtain ⟨hv, rfl⟩ := Session.start_eq_ok_iff.mp hstart
    exact ScriptSession.guarded_of_valid (ScriptSession.valid_of hv requests)

/-- Bounds of which only the last ones fit. -/
def triedBounds : List Operation := [.setBounds 0 3, .setBounds 5 2, .setBounds 2 6]

/-- The same from a script, with values that are no bounds among them. -/
def triedValues : List Request :=
  [.setBounds (.integer 0) (.integer 3), .setBounds (.text "5") .nothing,
    .setBounds (.integer 2) (.integer 6)]

/-- After such bounds a session has the last ones. It does not take others that do not fit, a script
cannot make it take none, and a survey without lengths is refused. -/
theorem settings_stay_valid_triedBounds : ∃ s violation,
    Session.start {} lastNames = .ok s ∧ (s.afterAll triedBounds).settings.minLen = 2 ∧
      (Session.changeBounds 7 6).run.run (s.afterAll triedBounds) =
        (.error (.invalidSettings (.maxLenBelowMin 7 6)), s.afterAll triedBounds) ∧
      Started usualScript ∧
      (History.of usualScript triedValues).script.session.settings.check =
        .ok (History.of usualScript triedValues).script.session.settings ∧
      (∃ e, (History.of usualScript triedValues).script.setBounds .nothing (.integer 6) =
        .error e) ∧
      ¬({ maxLen := 0 } : Settings).Valid ∧ violation = .maxLenBelowMin 1 0 ∧
      Survey.ofForest { maxLen := 0 } wrappedForest {} =
        (.error (.refused (.invalidSettings violation)), {}) := by
  obtain ⟨hsession, hscript, hsurvey⟩ := settings_stay_valid
  have hstart : Session.start {} lastNames = .ok { tables := { names := lastNames } } := rfl
  have hs := hsession {} lastNames _ hstart triedBounds
  have hstarted : Started usualScript := .inl ⟨{}, rfl⟩
  have hg := hscript usualScript hstarted triedValues
  have hinvalid : ¬({ maxLen := 0 } : Settings).Valid := by decide
  obtain ⟨violation, hviolation, hrefused⟩ := hsurvey { maxLen := 0 } hinvalid
  refine ⟨_, violation, hstart, by decide +kernel, hs.refuses 7 6 (by decide), hstarted,
    hg.session.check, (hg.refuses .nothing (.integer 6) ?_).1, hinvalid,
    (Option.some.inj hviolation).symm, hrefused wrappedForest {}⟩
  rintro ⟨lo, hi, hlo, -⟩
  cases hlo

end Scripting
end GrammarInduction
