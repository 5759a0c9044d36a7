import GrammarInduction.Neighbourhood.Likeness
import Std.Data.HashMap

/-!
A memo of side likenesses. Two sides are kept under one key in either order, since likeness is
symmetric; neighbourhoods are looked up side by side.
-/
namespace GrammarInduction

/-- Two sides, the smaller one first, and the flank on which they stand. -/
structure SidePair where
  smaller : Side
  larger : Side
  flank : Flank
  deriving Inhabited, DecidableEq, Hashable, Repr

def SidePair.of (flank : Flank) (a b : Side) : SidePair :=
  if (a.order b).isLE then ⟨a, b, flank⟩ else ⟨b, a, flank⟩

/-- Likenesses that were computed before. -/
structure LikenessMemo where
  known : Std.HashMap SidePair Nat := {}
  deriving Inhabited

namespace LikenessMemo

def empty : LikenessMemo := {}

def size (m : LikenessMemo) : Nat := m.known.size

def isEmpty (m : LikenessMemo) : Bool := m.known.isEmpty

/-- The likeness of two sides, which is known afterwards. -/
def sides (m : LikenessMemo) (flank : Flank) (a b : Side) : Nat × LikenessMemo :=
  let key := SidePair.of flank a b
  match m.known[key]? with
  | some score => (score, m)
  | none =>
    let score := Likeness.sides flank a b
    (score, ⟨m.known.insert key score⟩)

/-- The likeness of two neighbourhoods; equal ones need no look-up. -/
def neighbourhoods (m : LikenessMemo) (a b : Neighbourhood) : Nat × LikenessMemo :=
  if a = b then (Likeness.whole, m)
  else
    let (l, m) := m.sides .left a.left b.left
    let (r, m) := m.sides .right a.right b.right
    (l + r, m)

/-- Everything known is the likeness of its sides. -/
def Sound (m : LikenessMemo) : Prop :=
  ∀ (k : SidePair) (score : Nat), m.known[k]? = some score →
    score = Likeness.sides k.flank k.smaller k.larger

theorem sound_empty : empty.Sound := by intro k s h; simp [empty] at h

/-- The key of two sides has their likeness. -/
theorem likeness_of (flank : Flank) (a b : Side) :
    Likeness.sides (SidePair.of flank a b).flank (SidePair.of flank a b).smaller
      (SidePair.of flank a b).larger = Likeness.sides flank a b := by
  by_cases h : (a.order b).isLE
  · simp [SidePair.of, h]
  · simp [SidePair.of, h, Likeness.sides_comm flank b a]

theorem sides_of_known {m : LikenessMemo} {flank : Flank} {a b : Side} {score : Nat}
    (h : m.known[SidePair.of flank a b]? = some score) :
    m.sides flank a b = (score, m) := by simp [sides, h]

theorem sides_of_new {m : LikenessMemo} {flank : Flank} {a b : Side}
    (h : m.known[SidePair.of flank a b]? = none) :
    m.sides flank a b = (Likeness.sides flank a b,
      ⟨m.known.insert (SidePair.of flank a b) (Likeness.sides flank a b)⟩) := by simp [sides, h]

theorem sides_fst {m : LikenessMemo} (h : m.Sound) (flank : Flank) (a b : Side) :
    (m.sides flank a b).1 = Likeness.sides flank a b := by
  cases hk : m.known[SidePair.of flank a b]? with
  | none => rw [sides_of_new hk]
  | some s => rw [sides_of_known hk]; simpa [likeness_of] using h _ _ hk

theorem sound_sides {m : LikenessMemo} (h : m.Sound) (flank : Flank) (a b : Side) :
    (m.sides flank a b).2.Sound := by
  cases hk : m.known[SidePair.of flank a b]? with
  | some s => rw [sides_of_known hk]; exact h
  | none =>
    rw [sides_of_new hk]
    intro k s hs
    by_cases he : k = SidePair.of flank a b
    · subst he
      rw [likeness_of]
      simpa [eq_comm] using hs
    · exact h k s (by simpa [Std.HashMap.getElem?_insert, Ne.symm he] using hs)

theorem neighbourhoods_of_ne {m : LikenessMemo} {a b : Neighbourhood} (h : a ≠ b) :
    m.neighbourhoods a b =
      ((m.sides .left a.left b.left).1 +
        ((m.sides .left a.left b.left).2.sides .right a.right b.right).1,
      ((m.sides .left a.left b.left).2.sides .right a.right b.right).2) := by
  simp [neighbourhoods, h]

@[simp] theorem neighbourhoods_self (m : LikenessMemo) (a : Neighbourhood) :
    m.neighbourhoods a a = (Likeness.whole, m) := by simp [neighbourhoods]

/-- A sound memo answers with the likeness itself. -/
theorem neighbourhoods_fst {m : LikenessMemo} (h : m.Sound) (a b : Neighbourhood) :
    (m.neighbourhoods a b).1 = Likeness.neighbourhoods a b := by
  by_cases he : a = b
  · subst he; simp [Likeness.neighbourhoods]
  · rw [neighbourhoods_of_ne he, sides_fst h, sides_fst (sound_sides h .left a.left b.left)]
    simp [Likeness.neighbourhoods, he]

theorem sound_neighbourhoods {m : LikenessMemo} (h : m.Sound) (a b : Neighbourhood) :
    (m.neighbourhoods a b).2.Sound := by
  by_cases he : a = b
  · subst he; simpa using h
  · rw [neighbourhoods_of_ne he]
    exact sound_sides (sound_sides h .left a.left b.left) .right a.right b.right

end LikenessMemo
end GrammarInduction
