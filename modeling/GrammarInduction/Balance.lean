/-!
Balanced text: brackets close in the order in which they opened. A quotation mark suspends the
matching until the same mark comes again, or to the end of the text.
-/
namespace GrammarInduction
namespace Balance

def isQuote (c : Char) : Bool := c == '\x27' || c == '"'

def isOpener (c : Char) : Bool := c == '(' || c == '[' || c == '{'

/-- The opening bracket that a closing bracket needs. -/
def opener? : Char → Option Char
  | ')' => some '('
  | ']' => some '['
  | '}' => some '{'
  | _ => none

/-- Reads on inside or outside a quotation, with the brackets still open, innermost first. -/
def reads (quote : Option Char) (pending : List Char) : List Char → Bool
  | [] => pending.isEmpty
  | c :: cs =>
    match quote with
    | some q => reads (if c = q then none else some q) pending cs
    | none =>
      if isQuote c then reads (some c) pending cs
      else if isOpener c then reads none (c :: pending) cs
      else match opener? c, pending with
        | none, pending => reads none pending cs
        | some o, p :: pending => p == o && reads none pending cs
        | some _, [] => false

end Balance

/-- Whether the brackets of a text match. -/
def isBalanced (text : String) : Bool := Balance.reads none [] text.toList

example : isBalanced "a(b[c]\x7bd\x7d)" = true ∧ isBalanced "([)]" = false := by decide
example : isBalanced "')'" = true ∧ isBalanced "(\")" = false ∧ isBalanced "'(" = true := by decide

end GrammarInduction
