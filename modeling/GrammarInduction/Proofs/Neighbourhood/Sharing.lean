import Mathlib.Data.Finset.Card
import GrammarInduction.Proofs.Neighbourhood.Order

/-!
A memo that workers share. A look-up reads the memo once and, where nothing is known, computes the
likeness and stores it later; in between others may read, store and clear. Whatever the order, each
look-up answers with the likeness of its own sides, and once all have answered, the memo holds one
entry for each two sides that were looked up since it was empty.
-/
namespace GrammarInduction

/-- What a look-up asks for: the likeness of two sides on a flank. -/
structure Question where
  flank : Flank
  first : Side
  second : Side
  deriving DecidableEq

namespace Question

/-- The key under which the memo is read and written. -/
def key (q : Question) : SidePair := .of q.flank q.first q.second

/-- The likeness of the two sides in their own order. -/
def answer (q : Question) : Nat := Likeness.sides q.flank q.first q.second

/-- The two sides in no order, and their flank. -/
def combination (q : Question) : Sym2 Side × Flank := (s(q.first, q.second), q.flank)

end Question

def SidePair.combination (k : SidePair) : Sym2 Side × Flank := (s(k.smaller, k.larger), k.flank)

lemma Question.combination_key (q : Question) : q.key.combination = q.combination := by
  obtain ⟨hsides, hflank⟩ := SidePair.sides_of q.flank q.first q.second
  exact Prod.ext hsides hflank

/-- Two questions share a key exactly if they ask for the same two sides on the same flank. -/
theorem Question.key_eq_iff {p q : Question} : p.key = q.key ↔ p.combination = q.combination :=
  SidePair.of_eq_of_iff.trans Prod.mk_inj.symm

namespace LikenessMemo

def read (m : LikenessMemo) (q : Question) : Option Nat := m.known[q.key]?

def store (m : LikenessMemo) (q : Question) : LikenessMemo := ⟨m.known.insert q.key q.answer⟩

/-- A look-up that nobody disturbs reads and then stores what it did not find. -/
theorem sides_eq (m : LikenessMemo) (q : Question) :
    m.sides q.flank q.first q.second =
      match m.read q with
      | some score => (score, m)
      | none => (q.answer, m.store q) := by
  cases h : m.read q with
  | some score => exact sides_of_known h
  | none => exact sides_of_new h

lemma sound_store {m : LikenessMemo} (hm : m.Sound) (q : Question) : (m.store q).Sound := by
  intro k score h
  rw [store, Std.HashMap.getElem?_insert] at h
  split at h
  · rename_i hk
    obtain rfl := eq_of_beq hk
    obtain rfl := Option.some.inj h
    exact (likeness_of q.flank q.first q.second).symm
  · exact hm k score h

@[simp] lemma read_empty (q : Question) : empty.read q = none := by simp [read, empty]

lemma read_eq_answer {m : LikenessMemo} (hm : m.Sound) {q : Question} {score : Nat}
    (h : m.read q = some score) : score = q.answer :=
  (hm q.key score h).trans (likeness_of q.flank q.first q.second)

lemma mem_store {m : LikenessMemo} {q : Question} {k : SidePair} :
    k ∈ (m.store q).known ↔ k = q.key ∨ k ∈ m.known := by
  rw [store, Std.HashMap.mem_insert, beq_iff_eq, eq_comm]

/-- The size of a memo is the number of its keys. -/
theorem size_eq_card {m : LikenessMemo} {keys : Finset SidePair}
    (h : ∀ k, k ∈ m.known ↔ k ∈ keys) : m.size = keys.card := by
  have hkeys : m.known.keys.toFinset = keys := by
    ext k
    rw [List.mem_toFinset, Std.HashMap.mem_keys, h]
  rw [← hkeys, List.toFinset_card_of_nodup Std.HashMap.nodup_keys, Std.HashMap.length_keys]
  rfl

end LikenessMemo

/-- A memo and, for each of its workers, the question that it read in vain and has not stored. -/
structure SharedMemo (ω : Type _) where
  memo : LikenessMemo
  pending : ω → Option Question

namespace SharedMemo

variable {ω : Type _}

/-- What happens to a shared memo. A look-up is a hit, or a miss and later a store. -/
inductive Event (ω : Type _)
  | hit (w : ω) (q : Question) (score : Nat)
  | miss (w : ω) (q : Question)
  | store (w : ω) (q : Question) (score : Nat)
  | clear

namespace Event

/-- The question of a look-up that begins. -/
def asked? : Event ω → Option Question
  | hit _ q _ => some q
  | miss _ q => some q
  | store _ _ _ => none
  | clear => none

/-- The question of a look-up that ends, with the score that it returns. -/
def answered? : Event ω → Option (Question × Nat)
  | hit _ q score => some (q, score)
  | miss _ _ => none
  | store _ q score => some (q, score)
  | clear => none

end Event

def asked (events : List (Event ω)) : List Question := events.filterMap Event.asked?

def fresh : SharedMemo ω := ⟨.empty, fun _ => none⟩

/-- Forgets the memo, but not who has still to store. -/
def clear (s : SharedMemo ω) : SharedMemo ω := { s with memo := .empty }

def Quiet (s : SharedMemo ω) : Prop := ∀ w, s.pending w = none

/-- Someone has still to store under a key. -/
def Awaits (pending : ω → Option Question) (k : SidePair) : Prop :=
  ∃ w q, pending w = some q ∧ q.key = k

/-- A key is in the memo, or someone has still to store under it. -/
def Accounts (s : SharedMemo ω) (k : SidePair) : Prop := k ∈ s.memo.known ∨ Awaits s.pending k

lemma accounts_iff_of_quiet {s : SharedMemo ω} (h : s.Quiet) {k : SidePair} :
    s.Accounts k ↔ k ∈ s.memo.known := by
  simp [Accounts, Awaits, h _]

variable [DecidableEq ω]

lemma awaits_update_some {pending : ω → Option Question} {w : ω} (hidle : pending w = none)
    {q : Question} {k : SidePair} :
    Awaits (Function.update pending w (some q)) k ↔ q.key = k ∨ Awaits pending k := by
  constructor
  · rintro ⟨w', q', hq, rfl⟩
    by_cases hw : w' = w
    · subst hw
      rw [Function.update_self] at hq
      exact .inl (Option.some.inj hq ▸ rfl)
    · rw [Function.update_of_ne hw] at hq
      exact .inr ⟨w', q', hq, rfl⟩
  · rintro (rfl | ⟨w', q', hq, rfl⟩)
    · exact ⟨w, q, Function.update_self .., rfl⟩
    · have hw : w' ≠ w := by
        rintro rfl
        cases hidle.symm.trans hq
      exact ⟨w', q', by rw [Function.update_of_ne hw, hq], rfl⟩

/-- Before it stores, a worker is one of those that have still to store. -/
theorem awaits_iff_of_pending {pending : ω → Option Question} {w : ω} {q : Question}
    (h : pending w = some q) {k : SidePair} :
    Awaits pending k ↔ q.key = k ∨ Awaits (Function.update pending w none) k := by
  rw [← awaits_update_some (Function.update_self ..), Function.update_idem, ← h,
    Function.update_eq_self]

/-- A worker has looked up a question in vain. -/
def begin (s : SharedMemo ω) (w : ω) (q : Question) : SharedMemo ω :=
  { s with pending := Function.update s.pending w (some q) }

/-- A worker stores the answer to its question. -/
def settle (s : SharedMemo ω) (w : ω) (q : Question) : SharedMemo ω :=
  ⟨s.memo.store q, Function.update s.pending w none⟩

/-- One step of a worker, or a clearing by anyone. Reading and storing are atomic each, but not
together: a worker stores what it computed also where another one has stored or cleared since. -/
inductive Step : SharedMemo ω → Event ω → SharedMemo ω → Prop
  | hit {s : SharedMemo ω} {w : ω} {q : Question} {score : Nat} (hidle : s.pending w = none)
      (hread : s.memo.read q = some score) : Step s (.hit w q score) s
  | miss {s : SharedMemo ω} {w : ω} {q : Question} (hidle : s.pending w = none)
      (hread : s.memo.read q = none) :
      Step s (.miss w q) (s.begin w q)
  | store {s : SharedMemo ω} {w : ω} {q : Question} (hpending : s.pending w = some q) :
      Step s (.store w q q.answer) (s.settle w q)
  | clear (s : SharedMemo ω) : Step s .clear s.clear

/-- Any number of steps, in whatever order the workers take them. -/
inductive Run (s : SharedMemo ω) : List (Event ω) → SharedMemo ω → Prop
  | start : Run s [] s
  | step {events : List (Event ω)} {t u : SharedMemo ω} {e : Event ω} (h : Run s events t)
      (hstep : Step t e u) : Run s (events ++ [e]) u

variable {s t : SharedMemo ω} {e : Event ω} {events : List (Event ω)}

/-- A worker without a look-up can begin any. -/
theorem exists_step_of_idle {w : ω} (h : s.pending w = none) (q : Question) :
    ∃ e t, Step s e t ∧ e.asked? = some q := by
  cases hread : s.memo.read q with
  | some score => exact ⟨_, _, .hit h hread, rfl⟩
  | none => exact ⟨_, _, .miss h hread, rfl⟩

/-- A worker can end its look-up. -/
theorem exists_step_of_pending {w : ω} {q : Question} (h : s.pending w = some q) :
    ∃ e t, Step s e t ∧ e.answered? = some (q, q.answer) := ⟨_, _, .store h, rfl⟩

/-- A look-up of the memo that nobody disturbs is a hit, or a miss and then a store. -/
theorem exists_run_sides {w : ω} (hidle : s.pending w = none) (q : Question) :
    ∃ es, (es = [.hit w q (s.memo.sides q.flank q.first q.second).1] ∨
        es = [.miss w q, .store w q (s.memo.sides q.flank q.first q.second).1]) ∧
      Run s es { s with memo := (s.memo.sides q.flank q.first q.second).2 } := by
  rw [LikenessMemo.sides_eq]
  cases hread : s.memo.read q with
  | some score => exact ⟨_, .inl rfl, Run.start.step (.hit hidle hread)⟩
  | none =>
    have hmiss : Run s [.miss w q] (s.begin w q) := Run.start.step (.miss hidle hread)
    have hend : (s.begin w q).settle w q = { s with memo := s.memo.store q } := by
      rw [settle, begin, Function.update_idem, ← hidle, Function.update_eq_self]
    exact ⟨_, .inr rfl, hend ▸ hmiss.step (.store (Function.update_self ..))⟩

lemma Step.sound (h : Step s e t) (hs : s.memo.Sound) : t.memo.Sound := by
  cases h with
  | hit => exact hs
  | miss => exact hs
  | store => exact LikenessMemo.sound_store hs _
  | clear => exact LikenessMemo.sound_empty

lemma Step.answer_eq (h : Step s e t) (hs : s.memo.Sound) {q : Question} {score : Nat}
    (he : e.answered? = some (q, score)) : score = q.answer := by
  cases h with
  | hit hidle hread =>
    cases he
    exact LikenessMemo.read_eq_answer hs hread
  | miss => cases he
  | store hpending =>
    cases he
    rfl
  | clear => cases he

lemma Run.append {more : List (Event ω)} {u : SharedMemo ω} (h : Run s events t)
    (h' : Run t more u) : Run s (events ++ more) u := by
  induction h' with
  | start => rwa [List.append_nil]
  | step _ hstep ih =>
    rw [← List.append_assoc]
    exact ih.step hstep

lemma Run.sound (h : Run s events t) (hs : s.memo.Sound) : t.memo.Sound := by
  induction h with
  | start => exact hs
  | step _ hstep ih => exact hstep.sound ih

lemma Run.answer_eq (h : Run s events t) (hs : s.memo.Sound) {q : Question} {score : Nat}
    (he : e ∈ events) (hq : e.answered? = some (q, score)) : score = q.answer := by
  induction h with
  | start => exact absurd he List.not_mem_nil
  | step hrun hstep ih =>
    rcases List.mem_append.mp he with he | he
    · exact ih he
    · obtain rfl := List.mem_singleton.mp he
      exact hstep.answer_eq (hrun.sound hs) hq

/-- Until the memo is cleared, exactly the keys of new look-ups are added. -/
theorem Step.accounts_iff (h : Step s e t) (he : e ≠ .clear) {k : SidePair} :
    t.Accounts k ↔ s.Accounts k ∨ ∃ q, e.asked? = some q ∧ q.key = k := by
  cases h with
  | @hit w q score hidle hread =>
    have hknown : q.key ∈ s.memo.known := by
      rw [Std.HashMap.mem_iff_isSome_getElem?, ← LikenessMemo.read, hread]
      rfl
    refine (or_iff_left_of_imp ?_).symm
    rintro ⟨q', hq, rfl⟩
    exact .inl (Option.some.inj hq ▸ hknown)
  | @miss w q hidle hread =>
    have hasked : (∃ q', (Event.miss w q).asked? = some q' ∧ q'.key = k) ↔ q.key = k := by
      simp [Event.asked?]
    rw [Accounts, Accounts, begin, awaits_update_some hidle, hasked]
    tauto
  | @store w q hpending =>
    have hasked : ¬∃ q', (Event.store w q q.answer).asked? = some q' ∧ q'.key = k := by
      simp [Event.asked?]
    rw [Accounts, Accounts, settle, LikenessMemo.mem_store, awaits_iff_of_pending hpending,
      or_iff_left hasked, eq_comm]
    tauto
  | clear => exact absurd rfl he

lemma Run.accounts_iff (h : Run s events t) (he : .clear ∉ events) {k : SidePair} :
    t.Accounts k ↔ s.Accounts k ∨ ∃ q ∈ asked events, q.key = k := by
  induction h with
  | start => simp [asked]
  | @step events t u e _ hstep ih =>
    rw [List.mem_append, not_or, List.mem_singleton] at he
    rw [hstep.accounts_iff (Ne.symm he.2), ih he.1, or_assoc]
    apply or_congr_right
    simp only [asked, List.filterMap_append, List.mem_append, or_and_right, exists_or]
    apply or_congr_right
    cases hq : e.asked? <;> simp [hq]

/-- The memo holds one entry for each two sides that were looked up since it was empty, once no
look-up is on its way. -/
theorem Run.size_eq (h : Run s events t) (hs : s.Quiet) (hempty : s.memo = .empty)
    (he : .clear ∉ events) (ht : t.Quiet) :
    t.memo.size = ((asked events).map Question.combination).toFinset.card := by
  have hmem : ∀ k, k ∈ t.memo.known ↔ k ∈ ((asked events).map Question.key).toFinset := by
    intro k
    have hnone : ¬s.Accounts k := by
      rw [accounts_iff_of_quiet hs, hempty]
      exact Std.HashMap.not_mem_empty
    rw [← accounts_iff_of_quiet ht, h.accounts_iff he, List.mem_toFinset, List.mem_map]
    exact or_iff_right hnone
  have himage : ((asked events).map Question.combination).toFinset =
      ((asked events).map Question.key).toFinset.image SidePair.combination := by
    ext x
    simp [Question.combination_key]
  rw [LikenessMemo.size_eq_card hmem, himage, Finset.card_image_of_injOn]
  intro k hk k' hk' heq
  obtain ⟨q, -, rfl⟩ := List.mem_map.mp (List.mem_toFinset.mp hk)
  obtain ⟨q', -, rfl⟩ := List.mem_map.mp (List.mem_toFinset.mp hk')
  rw [Question.combination_key, Question.combination_key] at heq
  exact Question.key_eq_iff.mpr heq

/-- A memo that was just cleared is empty, and so is one that nothing happened to. -/
theorem Run.memo_eq_empty (h : Run fresh events s)
    (hlast : events = [] ∨ ∃ earlier, events = earlier ++ [.clear]) : s.memo = .empty := by
  cases h with
  | start => rfl
  | @step events t u e _ hstep =>
    rcases hlast with hnil | ⟨earlier, heq⟩
    · exact absurd hnil (List.append_ne_nil_of_right_ne_nil _ (List.cons_ne_nil _ _))
    · obtain ⟨-, he⟩ := List.append_inj' heq rfl
      obtain rfl : e = .clear := (List.cons.inj he).1
      cases hstep
      rfl

/-- Whoever shares a memo, and in whatever order they read, store and clear, each look-up returns
the likeness of its own sides in their own order, and each entry is the likeness of the sides of
its key. Since the memo was empty, be it at the start or by the last clearing, and with no look-up
on its way then or now, it holds as many entries as there are two sides on a flank that were looked
up, in either order. A look-up that nobody disturbs takes these steps, with the same score and
the same memo. -/
theorem shared_memo_transparent (h : Run fresh events t) :
    (∀ e ∈ events, ∀ q score, e.answered? = some (q, score) →
      score = Likeness.sides q.flank q.first q.second) ∧
    (∀ (k : SidePair) (score : Nat), t.memo.known[k]? = some score →
      score = Likeness.sides k.flank k.smaller k.larger) ∧
    (∀ before after s, events = before ++ after → Run fresh before s → Run s after t →
      (before = [] ∨ ∃ earlier, before = earlier ++ [.clear]) → .clear ∉ after →
      s.Quiet → t.Quiet →
        t.memo.size = ((asked after).map Question.combination).toFinset.card) ∧
    ∀ w q, t.pending w = none →
      ∃ es, (es = [.hit w q (t.memo.sides q.flank q.first q.second).1] ∨
          es = [.miss w q, .store w q (t.memo.sides q.flank q.first q.second).1]) ∧
        Run t es { t with memo := (t.memo.sides q.flank q.first q.second).2 } := by
  have hsound : (fresh : SharedMemo ω).memo.Sound := LikenessMemo.sound_empty
  refine ⟨fun e he q score hq => h.answer_eq hsound he hq, h.sound hsound, ?_,
    fun w q hidle => exists_run_sides hidle q⟩
  intro before after s _ hbefore hafter hlast hclear hs ht
  exact hafter.size_eq hs (hbefore.memo_eq_empty hlast) hclear ht

def startHidden : Question := ⟨.left, [.start], [.hidden]⟩

def hiddenStart : Question := ⟨.left, [.hidden], [.start]⟩

/-- A memo of two workers, used once and cleared. -/
def clearedMemo : SharedMemo Bool := ((fresh.begin false startHidden).settle false startHidden).clear

/-- Both workers look up the same sides in vain, and the second one stores first. -/
def racedMemo : SharedMemo Bool :=
  (((clearedMemo.begin false startHidden).begin true hiddenStart).settle true hiddenStart).settle
    false startHidden

lemma run_clearedMemo : Run fresh [.miss false startHidden,
    .store false startHidden startHidden.answer, .clear] clearedMemo := by
  have hmiss : Run fresh [.miss false startHidden] (fresh.begin false startHidden) :=
    Run.start.step (.miss rfl (LikenessMemo.read_empty startHidden))
  exact (hmiss.step (.store rfl)).step (.clear _)

lemma run_racedMemo : Run clearedMemo [.miss false startHidden, .miss true hiddenStart,
    .store true hiddenStart hiddenStart.answer,
    .store false startHidden startHidden.answer] racedMemo := by
  have hfirst : Run clearedMemo [.miss false startHidden] (clearedMemo.begin false startHidden) :=
    Run.start.step (.miss rfl (LikenessMemo.read_empty startHidden))
  have hsecond : Run clearedMemo [.miss false startHidden, .miss true hiddenStart]
      ((clearedMemo.begin false startHidden).begin true hiddenStart) :=
    hfirst.step (.miss rfl (LikenessMemo.read_empty hiddenStart))
  exact (hsecond.step (.store rfl)).step (.store rfl)

/-- Two look-ups of the same sides in either order race each other and leave one entry, and one more
look-up of them is answered with it. -/
theorem shared_memo_transparent_racedMemo :
    ∃ events, Run fresh events racedMemo ∧
      (∀ e ∈ events, ∀ q score, e.answered? = some (q, score) →
        score = Likeness.sides q.flank q.first q.second) ∧
      racedMemo.memo.size = 1 ∧
      ∃ es, Run racedMemo es
        { racedMemo with memo := (racedMemo.memo.sides .left [.start] [.hidden]).2 } := by
  have hrun := run_clearedMemo.append run_racedMemo
  obtain ⟨hanswers, -, hsize, hlookUp⟩ := shared_memo_transparent hrun
  obtain ⟨es, -, hes⟩ := hlookUp true startHidden rfl
  refine ⟨_, hrun, hanswers, ?_, es, hes⟩
  have hcleared : clearedMemo.Quiet := fun w => by cases w <;> rfl
  have hraced : racedMemo.Quiet := fun w => by cases w <;> rfl
  rw [hsize _ _ _ rfl run_clearedMemo run_racedMemo (.inr ⟨[_, _], rfl⟩) (by simp) hcleared hraced]
  decide

end SharedMemo
end GrammarInduction
