import Mathlib.Algebra.GroupWithZero.Nat
import GrammarInduction.Candidate.Basic
import GrammarInduction.Proofs.Forest.Nodes
import GrammarInduction.Proofs.Forest.Text

/-!
The traversals of trees as recursions on trees. Text and number of nodes are found by loops over a
stack, on which the children of a node stand above the siblings of its ancestors that still wait.
Whatever stands there, a loop adds to its result what the trees of the stack give alone, from the
top down. So both functions solve the equations of a recursion on the tree, which have one solution
only.
-/
namespace GrammarInduction

/-- The stack after the nodes were pushed one after the other; its top is the head of the list. -/
def Forest.push (stack : Forest) (nodes : List Node) : Forest :=
  nodes.foldl (fun rest n => n :: rest) stack

lemma Forest.push_eq (stack : Forest) (nodes : List Node) :
    stack.push nodes = nodes.reverse ++ stack := by
  rw [push, List.foldl_flip_cons_eq_append']

/-- A loop over a stack of trees. A round takes the node on top, lets it change the result and pushes
nodes that stand below it. -/
structure StackLoop (α : Type) where
  /-- The result after a node was taken. -/
  gather : α → Node → α
  /-- The nodes that a taken node pushes, in the order in which they are pushed. -/
  pushed : Node → List Node
  sizes_pushed_le : ∀ n, Node.sizes (pushed n) ≤ Node.sizes n.children

namespace StackLoop

variable {α : Type} (loop : StackLoop α)

/-- A run of the loop until the stack is empty: the result and the stack before it, and the result
after it. -/
inductive Run : α → Forest → α → Prop
  | done (a : α) : Run a [] a
  | round {a b : α} {n : Node} {rest : Forest}
      (tail : Run (loop.gather a n) (rest.push (loop.pushed n)) b) : Run a (n :: rest) b

/-- The stack may get longer in a round, but the trees on it lose the node that was taken; so every
run ends. -/
theorem sizes_push_pushed_lt (n : Node) (rest : Forest) :
    Node.sizes (rest.push (loop.pushed n)) < Node.sizes (n :: rest) := by
  have := loop.sizes_pushed_le n
  rw [Forest.push_eq, Node.sizes_append, Node.sizes_reverse, Node.sizes_cons, Node.size_eq]
  omega

/-- A function of result and stack that every round keeps, and that is the result when the stack is
empty. -/
structure Invariant (f : α → Forest → α) : Prop where
  done : ∀ a, f a [] = a
  round : ∀ a n (rest : Forest),
    f (loop.gather a n) (rest.push (loop.pushed n)) = f a (n :: rest)

variable {loop} {f : α → Forest → α}

/-- From every result and every stack the loop ends, with the value of any invariant. -/
theorem Invariant.run (h : loop.Invariant f) :
    ∀ (a : α) (stack : Forest), loop.Run a stack (f a stack)
  | a, [] => (h.done a).symm ▸ .done a
  | a, n :: rest => h.round a n rest ▸ .round (h.run _ _)
termination_by _ stack => Node.sizes stack
decreasing_by exact loop.sizes_push_pushed_lt n rest

/-- No other result can be reached. -/
theorem Invariant.run_iff (h : loop.Invariant f) {a b : α} {stack : Forest} :
    loop.Run a stack b ↔ b = f a stack := by
  constructor
  · intro hrun
    induction hrun with
    | done a => exact (h.done a).symm
    | round _ ih => exact ih.trans (h.round _ _ _)
  · rintro rfl
    exact h.run a stack

end StackLoop

namespace Forest

/-- The loop that reads text. A terminal adds its label and pushes nothing; a nonterminal pushes its
children from the last to the first, so that the first one is on top. -/
def readLoop : StackLoop String where
  gather out n := if n.isTerminal then out ++ n.label else out
  pushed n := if n.isTerminal then [] else n.children.reverse
  sizes_pushed_le n := by
    split
    · exact Nat.zero_le _
    · exact Nat.le_of_eq (Node.sizes_reverse n.children)

/-- The loop that counts nodes. Every node pushes its children from the first to the last. -/
def countLoop : StackLoop Nat where
  gather seen _ := seen + 1
  pushed n := n.children
  sizes_pushed_le _ := Nat.le_refl _

/-- The worklist of `textOnto` is the stack of the loop that reads text. -/
theorem invariant_textOnto : readLoop.Invariant textOnto where
  done out := by rw [textOnto]
  round out n rest := by
    rw [textOnto, push_eq]
    -- pushed from the last to the first, the children stand on the stack in their own order
    cases h : n.isTerminal <;> simp [readLoop, h]

/-- The worklist of `countOnto` is the stack of the loop that counts nodes. -/
theorem invariant_countOnto : countLoop.Invariant countOnto where
  done seen := by rw [countOnto]
  round seen n rest := by
    rw [countOnto, push_eq]
    rfl

end Forest

namespace Node

/-- A recursion on trees has one solution only. -/
theorem eq_iff_of_recursion {α : Type} (step : String → Bool → List α → α) {g : Node → α}
    (hg : ∀ l t cs, g ⟨l, t, cs⟩ = step l t (cs.map g)) (f : Node → α) :
    f = g ↔ ∀ l t cs, f ⟨l, t, cs⟩ = step l t (cs.map f) := by
  constructor
  · rintro rfl
    exact hg
  · intro hf
    funext n
    induction n using induct with
    | step l t cs ih => rw [hf, hg, List.map_congr_left ih]

lemma sizes_eq_sum (ns : List Node) : sizes ns = (ns.map count).sum := by
  induction ns with
  | nil => rw [sizes_nil, List.map_nil, List.sum_nil]
  | cons n ns ih => rw [sizes_cons, ih, List.map_cons, List.sum_cons, count_eq_size]

/-- A tree has its root and the nodes of all its children, also of those of a terminal. -/
theorem count_mk (l : String) (t : Bool) (cs : List Node) :
    (Node.mk l t cs).count = 1 + (cs.map count).sum := by
  rw [count_eq_size, size, sizes_eq_sum]

end Node

/-- The worklist adds the numbers of nodes of its trees to what was counted before. -/
theorem Forest.countOnto_eq_sum (seen : Nat) (work : Forest) :
    countOnto seen work = seen + (work.map Node.count).sum := by
  rw [countOnto_eq, Node.sizes_eq_sum]

/-- The traversals are recursions on trees. The text of a tree is the one function that gives the
label of a terminal, whatever is below it, and the texts of the children of a nonterminal, joined
from left to right; the number of nodes is the one that adds a node to those of all children, also
of a terminal. From any result and any stack the loops end, and only with what the trees on the
stack give added to that result. The text of a candidate is that of its elements, joined. -/
theorem traversals_eq_recursion :
    (∀ f : Node → String, f = Node.text ↔
      ∀ l t cs, f ⟨l, t, cs⟩ = if t then l else String.join (cs.map f)) ∧
    (∀ f : Node → Nat, f = Node.count ↔ ∀ l t cs, f ⟨l, t, cs⟩ = 1 + (cs.map f).sum) ∧
    (∀ out stack out', Forest.readLoop.Run out stack out' ↔
      out' = out ++ String.join (stack.map Node.text)) ∧
    (∀ seen stack total, Forest.countLoop.Run seen stack total ↔
      total = seen + (stack.map Node.count).sum) ∧
    ∀ c : Candidate, c.text = String.join (c.elements.map Node.text) := by
  refine ⟨?_, ?_, ?_, ?_, ?_⟩
  · exact Node.eq_iff_of_recursion (fun l t texts => if t then l else String.join texts)
      Node.text_mk
  · exact Node.eq_iff_of_recursion (fun _ _ counts => 1 + counts.sum) Node.count_mk
  · intro out stack out'
    rw [Forest.invariant_textOnto.run_iff, Forest.textOnto_eq_join]
  · intro seen stack total
    rw [Forest.invariant_countOnto.run_iff, Forest.countOnto_eq_sum]
  · intro c
    exact Forest.text_eq_join c.elements

example : (Node.branch "S" [⟨"a", true, [.terminal "x"]⟩,
    .branch "N" [.terminal "b", .terminal "c"]]).text = "abc" := by cbv
example : (Node.branch "S" [⟨"a", true, [.terminal "x"]⟩,
    .branch "N" [.terminal "b", .terminal "c"]]).count = 6 := by cbv

end GrammarInduction
