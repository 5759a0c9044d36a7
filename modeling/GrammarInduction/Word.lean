/-!
The range of machine words. Sizes, counters and numbers of settings are words of 64 bits without
sign.
-/
namespace GrammarInduction

/-- The greatest word. -/
def wordMax : Nat := 0xffffffffffffffff

end GrammarInduction
