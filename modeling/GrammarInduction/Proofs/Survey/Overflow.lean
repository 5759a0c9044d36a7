import GrammarInduction.Proofs.Survey.Runs

/-!
When a survey with valid settings cannot finish. The check of the settings bounds no length from
above, so the first length that does not fit may lead beyond the words; nothing else can stop a
survey, and no run that it looks at leaves the children.
-/
namespace GrammarInduction
namespace Survey

variable {settings : Settings} {trees : Forest}

/-- A survey finishes exactly if its settings are valid and do not overreach in the forest. With
valid settings that do it fails with the overflow and nothing else. In either case all runs that are
looked at are within the children. -/
theorem finishes_iff_not_overreaches (settings : Settings) (trees : Forest) (tables : Tables) :
    ((∃ s, (ofForest settings trees tables).1 = .ok s) ↔
      settings.Valid ∧ ¬Overreaches settings trees) ∧
    ((ofForest settings trees tables).1 = .error (.faulted .lengthOverflow) ↔
      settings.Valid ∧ Overreaches settings trees) ∧
    ∀ v ∈ trees.visits, ∀ r ∈ (settings.runs v.size).1, r.stop ≤ v.size := by
  have hruns : ∀ v ∈ trees.visits, ∀ r ∈ (settings.runs v.size).1, r.stop ≤ v.size :=
    fun v _ r hr => Settings.stop_le_of_mem_runs hr
  rcases ofForest_cases settings trees tables with
    ⟨hs, refusal, hr⟩ | ⟨hs, ho, hr⟩ | ⟨hs, ho, s, hr⟩
  · simpa [hr, hs] using hruns
  · simpa [hr, hs, ho] using hruns
  · simpa [hr, hs, ho] using hruns

/-- Where lengths grow by one, only the shortest length and the children have to be within the words
together, however long the longest one is. -/
theorem not_overreaches_of_stride_eq_one (hs : settings.Valid) (hstride : settings.stride = 1)
    (h : ∀ v ∈ trees.visits, v.size + settings.minLen ≤ wordMax) : ¬Overreaches settings trees := by
  rintro ⟨site, n, hn, i, hi, len, ⟨k, hlen, hmax⟩, -, hword, hfits⟩
  obtain ⟨v, hv, -, rfl⟩ := Forest.exists_visit hn
  have hbound : v.node.children.length + settings.minLen ≤ wordMax := h v hv
  have hmin := hs.1
  rw [hstride] at hlen
  cases k with
  | zero => omega
  | succ k =>
    -- The length before this one fits, so this one is at most one too long.
    have := hfits (settings.minLen + k) (by omega) ⟨k, by rw [hstride, Nat.mul_one], by omega⟩
    omega

/-- Valid settings whose second length is the greatest word. -/
def overreaching : Settings := { maxLen := wordMax, spanStep := .increment }

/-- A root with two terminals: behind the first one the second length is out of reach. -/
def twoTerminals : Node := .branch "START" [.terminal "a", .terminal "b"]

theorem ofForest_overreaching : overreaching.check = .ok overreaching ∧
    (ofForest overreaching [twoTerminals] {}).1 = .error (.faulted .lengthOverflow) ∧
    ¬∃ s, (ofForest overreaching [twoTerminals] {}).1 = .ok s := by
  have hcheck : overreaching.check = .ok overreaching := by decide
  have hv : ⟨⟨0, []⟩, twoTerminals, .start, .stop, 0⟩ ∈ Forest.visits [twoTerminals] :=
    List.mem_singleton.mpr rfl
  have ho : overflows overreaching ⟨⟨0, []⟩, twoTerminals, .start, .stop, 0⟩ = true := by
    decide +kernel
  have hfails := ofForest_of_overflow {} (Settings.check_eq_ok_iff.mp hcheck).2 hv ho
  refine ⟨hcheck, hfails, ?_⟩
  rintro ⟨s, hs⟩
  rw [hfails] at hs
  cases hs

end Survey
end GrammarInduction
