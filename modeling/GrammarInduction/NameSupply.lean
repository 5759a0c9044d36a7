import GrammarInduction.Word

/-!
Supplies of fresh names: a stem followed by a counter. Names are distinct until the counter
reaches the greatest word, where it stays.
-/
namespace GrammarInduction

/-- A stem and the number of the next name. -/
structure NameSupply where
  stem : String := "t"
  next : Nat := 0
  deriving Inhabited, DecidableEq, Repr

namespace NameSupply

def nameAt (s : NameSupply) (i : Nat) : String := s.stem ++ toString i

def advance (s : NameSupply) : NameSupply := { s with next := min (s.next + 1) wordMax }

def fresh (s : NameSupply) : String × NameSupply := (s.nameAt s.next, s.advance)

/-- Hands out names one after the other, each with the counter after it. -/
def take (s : NameSupply) : Nat → List (String × Nat) × NameSupply
  | 0 => ([], s)
  | n + 1 =>
    let (name, s) := s.fresh
    let (rest, final) := s.take n
    ((name, s.next) :: rest, final)

@[simp] theorem stem_advance (s : NameSupply) : s.advance.stem = s.stem := rfl

end NameSupply
end GrammarInduction
