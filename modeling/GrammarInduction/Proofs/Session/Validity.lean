import GrammarInduction.Proofs.Session.Names

/-!
The settings of a session. They are valid when it starts, and nothing that is asked of it makes
them invalid: of the settings only the bounds change, and new ones are checked before they are
stored. So no survey of a session is refused, and bounds that do not fit leave no trace.
-/
namespace GrammarInduction
namespace Settings

variable {s : Settings}

/-- Other bounds for valid settings have to fit each other, and nothing else. -/
theorem Valid.bounds_iff (h : s.Valid) {minLen maxLen : Nat} :
    ({ s with minLen, maxLen } : Settings).Valid ↔ 1 ≤ minLen ∧ minLen ≤ maxLen :=
  ⟨fun hv => ⟨hv.1, hv.2.1⟩, fun hb => ⟨hb.1, hb.2, h.2.2⟩⟩

/-- What is wrong with bounds that do not fit. -/
theorem violation?_of_bounds {minLen maxLen : Nat} (hb : ¬(1 ≤ minLen ∧ minLen ≤ maxLen)) :
    ({ s with minLen, maxLen } : Settings).violation? =
      some (if minLen = 0 then .minLenZero else .maxLenBelowMin minLen maxLen) := by
  unfold violation?
  dsimp only
  split
  · rfl
  · rw [if_pos (by omega)]

end Settings

namespace Session

variable {s : Session}

/-- Changes the bounds in place. Nothing is taken back when this fails: the session is kept because
the new settings are checked before they are stored. -/
def changeBounds (minLen maxLen : Nat) : ExceptT Refusal (StateM Session) Unit := do
  let settings := { (← get).settings with minLen, maxLen }
  let settings ← liftExcept settings.check
  modify fun s => { s with settings }

/-- In place the bounds change as they do from one session to the next. -/
theorem run_changeBounds (s : Session) (minLen maxLen : Nat) :
    (changeBounds minLen maxLen).run.run s =
      ((s.setBounds minLen maxLen).map fun _ => (), s.after (.setBounds minLen maxLen)) := by
  -- Reading the session first, what is checked is known.
  have hrun : (changeBounds minLen maxLen).run.run s =
      ((liftExcept ({ s.settings with minLen, maxLen } : Settings).check :
        ExceptT Refusal (StateM Session) Settings) >>= fun settings =>
          modify fun s => { s with settings }).run.run s := rfl
  rw [hrun, after, setBounds]
  cases ({ s.settings with minLen, maxLen } : Settings).check <;> rfl

/-- Whatever is asked of a session, valid settings stay valid. -/
theorem valid_after (h : s.settings.Valid) (op : Operation) : (s.after op).settings.Valid := by
  cases op with
  | setBounds minLen maxLen =>
    obtain ⟨settings, hs, hvalid⟩ := s.exists_after_setBounds minLen maxLen
    rw [hs]
    exact hvalid h
  | rank survey =>
    obtain ⟨memo, hs⟩ := s.exists_after_rank survey
    rw [hs]
    exact h
  | clearMemo | reset | seed | survey | applyCandidate | applyProposal => exact h

lemma valid_afterAll (h : s.settings.Valid) (ops : List Operation) :
    (s.afterAll ops).settings.Valid := by
  induction ops generalizing s with
  | nil => exact h
  | cons op ops ih => exact ih (valid_after h op)

/-- What a session with valid settings guards. -/
structure Guarded (s : Session) : Prop where
  /-- The settings pass their check. -/
  check : s.settings.check = .ok s.settings
  /-- No survey is refused. -/
  accepts : ∀ trees refusal, (s.survey trees).1 ≠ .error (.refused refusal)
  /-- Within the words a survey finishes. -/
  finishes : ∀ trees, Survey.WithinWords s.settings trees →
    ∃ survey, (s.survey trees).1 = .ok survey
  /-- Bounds that fit each other are stored, and nothing else changes. -/
  changes : ∀ minLen maxLen, 1 ≤ minLen → minLen ≤ maxLen →
    (changeBounds minLen maxLen).run.run s =
      (.ok (), { s with settings := { s.settings with minLen, maxLen } })
  /-- Bounds that do not fit are refused, and nothing changes at all. -/
  refuses : ∀ minLen maxLen, ¬(1 ≤ minLen ∧ minLen ≤ maxLen) →
    (changeBounds minLen maxLen).run.run s =
      (.error (.invalidSettings
        (if minLen = 0 then .minLenZero else .maxLenBelowMin minLen maxLen)), s)

lemma guarded_of_valid (h : s.settings.Valid) : s.Guarded where
  check := Settings.check_eq_ok_iff.mpr ⟨rfl, h⟩
  accepts trees refusal := by
    rcases Survey.ofForest_of_valid h trees s.tables with ⟨survey, hs⟩ | hs <;>
      exact fun hr => nomatch hs.symm.trans hr
  finishes trees hwords :=
    ⟨_, congrArg Prod.fst (Survey.ofForest_of_withinWords s.tables h hwords)⟩
  changes minLen maxLen hlo hhi := by
    have hok := setBounds_eq_ok_iff.mpr ⟨h.bounds_iff.mpr ⟨hlo, hhi⟩, rfl⟩
    rw [run_changeBounds, after, hok]
    rfl
  refuses minLen maxLen hb := by
    have herror := Settings.check_eq_error_iff.mpr
      ⟨_, Settings.violation?_of_bounds hb (s := s.settings), rfl⟩
    rw [run_changeBounds, after, setBounds, herror]
    rfl

end Session
end GrammarInduction
