import Refactory.Tree.Walk

/-!
# The order of a walk down

A walk with a stack lists what a recursion lists that goes through the children of a node in order
(`Tree.stackWalk_eq`). Both give up at the same depth, so they agree in every tree, whether or not
its nodes form one.
-/
namespace Refactory

namespace Tree

variable (tree : Tree)

/-- A node and everything below it, down to a depth: the node, then each child with what is below
it. -/
def preorder : Nat → Ref → List Ref
  | 0, _ => []
  | bound + 1, ref => ref :: (tree.children ref).flatMap (preorder bound)

/-- A walk lists each entry of its stack, from the top, with everything below it. -/
theorem stackWalk_eq (stack : List (Nat × Ref)) :
    tree.stackWalk stack = stack.flatMap fun entry => tree.preorder entry.1 entry.2 := by
  induction stack using stackWalk.induct tree with
  | case1 => rw [stackWalk, List.flatMap_nil]
  | case2 ref stack ih => rw [stackWalk, ih, List.flatMap_cons, preorder, List.nil_append]
  | case3 bound ref stack ih =>
    rw [stackWalk, ih, List.flatMap_append, List.flatMap_map, List.flatMap_cons, preorder,
      List.cons_append]

/-- The descendants of a node are what is met in pre-order, down to the depth of the tree. -/
theorem descendants_some (number : Nat) :
    tree.descendants (some number) = tree.preorder tree.depthBound (some number) := by
  rw [descendants, stackWalk_eq, List.flatMap_singleton]

/-- A node is among its descendants. -/
theorem mem_descendants_self (number : Nat) : some number ∈ tree.descendants (some number) := by
  rw [descendants_some]
  exact .head _

end Tree

end Refactory
