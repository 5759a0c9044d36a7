import GrammarInduction.Neighbourhood.Basic

/-!
Likeness of neighbourhoods, counted in thirty-seconds. Equal sides score half of the whole. Other
sides are compared from the run outwards, where each step counts half of the one before; hidden
neighbours agree with nothing, and sides that end together agree from there on.
-/
namespace GrammarInduction

/-- The side of a run: its neighbours go outwards to the left or to the right. -/
inductive Flank
  | left
  | right
  deriving Inhabited, DecidableEq, Hashable, Repr

namespace Flank

/-- A side from the run outwards. -/
def outward : Flank → Side → Side
  | left, side => side.reverse
  | right, side => side

@[simp] theorem outward_inj (f : Flank) {a b : Side} : f.outward a = f.outward b ↔ a = b := by
  cases f <;> simp [outward]

end Flank

namespace Likeness

/-- The likeness of equal neighbourhoods, which stands for one. -/
def whole : Nat := 32

/-- The weights of the positions from the run outwards. -/
def weights : List Nat := [8, 4, 2, 1]

/-- Whether two neighbours count as alike. -/
def agree (a b : Neighbour) : Bool := decide (a = b ∧ a ≠ .hidden)

/-- Adds up the weights of the positions at which two outward sides agree. -/
def scan : List Nat → Side → Side → Nat
  | w :: ws, a :: as, b :: bs => (if agree a b then w else 0) + scan ws as bs
  | w :: ws, [], [] => w + scan ws [] []
  | _, _, _ => 0

def sides (flank : Flank) (a b : Side) : Nat :=
  if a = b then whole / 2 else scan weights (flank.outward a) (flank.outward b)

def neighbourhoods (a b : Neighbourhood) : Nat :=
  if a = b then whole else sides .left a.left b.left + sides .right a.right b.right

theorem agree_comm (a b : Neighbour) : agree a b = agree b a := by
  by_cases h : a = b
  · rw [h]
  · simp [agree, h, Ne.symm h]

theorem scan_comm (ws : List Nat) (a b : Side) : scan ws a b = scan ws b a := by
  induction ws generalizing a b with
  | nil => simp [scan]
  | cons w ws ih =>
    match a, b with
    | [], [] => rfl
    | [], _ :: _ => simp [scan]
    | _ :: _, [] => simp [scan]
    | x :: as, y :: bs => simp [scan, agree_comm y x, ih as bs]

theorem sides_comm (f : Flank) (a b : Side) : sides f a b = sides f b a := by
  simp [sides, eq_comm, scan_comm]

theorem neighbourhoods_comm (a b : Neighbourhood) : neighbourhoods a b = neighbourhoods b a := by
  simp [neighbourhoods, eq_comm, sides_comm]

end Likeness
end GrammarInduction
