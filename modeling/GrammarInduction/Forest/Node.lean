/-!
Parse trees. A node has a label, is terminal or not, and has children in order; terminals may hold
children too, which no reading of the tree looks at. Text and node count are computed with a
worklist, so that deep trees need no deep recursion.
-/
namespace GrammarInduction

structure Node where
  label : String
  isTerminal : Bool
  children : List Node
  deriving Inhabited, Repr

abbrev Forest := List Node

namespace Node

def terminal (label : String) : Node := ⟨label, true, []⟩

def branch (label : String) (children : List Node) : Node := ⟨label, false, children⟩

@[simp] theorem label_terminal (l : String) : (terminal l).label = l := rfl
@[simp] theorem isTerminal_terminal (l : String) : (terminal l).isTerminal = true := rfl
@[simp] theorem children_terminal (l : String) : (terminal l).children = [] := rfl
@[simp] theorem label_branch (l : String) (cs : List Node) : (branch l cs).label = l := rfl
@[simp] theorem isTerminal_branch (l : String) (cs : List Node) :
    (branch l cs).isTerminal = false := rfl
@[simp] theorem children_branch (l : String) (cs : List Node) : (branch l cs).children = cs := rfl

/-- A property that passes from all children to their parent holds of every node. -/
theorem induct {P : Node → Prop}
    (step : ∀ l t cs, (∀ c ∈ cs, P c) → P ⟨l, t, cs⟩) : ∀ n : Node, P n
  | ⟨l, t, cs⟩ => step l t cs fun c _ => induct step c

mutual
def decideEq : (a b : Node) → Decidable (a = b)
  | ⟨l, t, cs⟩, ⟨l', t', cs'⟩ =>
    match decEq l l' with
    | .isFalse h => .isFalse fun e => h (Node.mk.inj e).1
    | .isTrue hl =>
      match decEq t t' with
      | .isFalse h => .isFalse fun e => h (Node.mk.inj e).2.1
      | .isTrue ht =>
        match decideEqs cs cs' with
        | .isFalse h => .isFalse fun e => h (Node.mk.inj e).2.2
        | .isTrue hc => .isTrue (by rw [hl, ht, hc])
def decideEqs : (as bs : List Node) → Decidable (as = bs)
  | [], [] => .isTrue rfl
  | [], _ :: _ => .isFalse nofun
  | _ :: _, [] => .isFalse nofun
  | a :: as, b :: bs =>
    match decideEq a b with
    | .isFalse h => .isFalse fun e => h (List.cons.inj e).1
    | .isTrue ha =>
      match decideEqs as bs with
      | .isFalse h => .isFalse fun e => h (List.cons.inj e).2
      | .isTrue has => .isTrue (by rw [ha, has])
end

instance : DecidableEq Node := decideEq

mutual
/-- The number of nodes in a tree, children of terminals included. -/
def size : Node → Nat
  | ⟨_, _, cs⟩ => 1 + sizes cs
def sizes : List Node → Nat
  | [] => 0
  | n :: ns => n.size + sizes ns
end

theorem size_eq (n : Node) : n.size = 1 + sizes n.children := by
  cases n; simp [size]

@[simp] theorem sizes_nil : sizes [] = 0 := by simp [sizes]

@[simp] theorem sizes_cons (n : Node) (ns : List Node) : sizes (n :: ns) = n.size + sizes ns := by
  simp [sizes]

@[simp] theorem sizes_append (as bs : List Node) : sizes (as ++ bs) = sizes as + sizes bs := by
  induction as with
  | nil => simp
  | cons a as ih => simp [ih, Nat.add_assoc]

end Node

namespace Forest

/-- Appends to `out` the labels of the terminals on the worklist, left to right. A nonterminal is
replaced by its children; the children of a terminal are not looked at. -/
def textOnto (out : String) : Forest → String
  | [] => out
  | n :: rest =>
    if n.isTerminal then textOnto (out ++ n.label) rest
    else textOnto out (n.children ++ rest)
termination_by work => Node.sizes work
decreasing_by
  · simp only [Node.sizes_cons, Node.size_eq n]; omega
  · simp only [Node.sizes_cons, Node.sizes_append, Node.size_eq n]; omega

/-- Counts the nodes of the worklist on top of `seen`, taking the last child first. -/
def countOnto (seen : Nat) : Forest → Nat
  | [] => seen
  | n :: rest => countOnto (seen + 1) (n.children.reverse ++ rest)
termination_by work => Node.sizes work
decreasing_by
  have h : ∀ ns, Node.sizes ns.reverse = Node.sizes ns := by
    intro ns
    induction ns with
    | nil => rfl
    | cons m ms ih => simp [ih]; omega
  simp [Node.size_eq n, h]

def text (trees : Forest) : String := trees.foldl (fun out tree => textOnto out [tree]) ""

end Forest

namespace Node

/-- The text that a tree derives: the labels of its terminals from left to right. -/
def text (n : Node) : String := Forest.textOnto "" [n]

def count (n : Node) : Nat := Forest.countOnto 0 [n]

mutual
/-- The text of a tree by recursion on the tree. -/
def reading : Node → String
  | ⟨l, true, _⟩ => l
  | ⟨_, false, cs⟩ => readings cs
def readings : List Node → String
  | [] => ""
  | n :: ns => n.reading ++ readings ns
end

end Node
end GrammarInduction
