import Jack.Tree

namespace Jack

/-- A line of an outline: a label under two spaces for each level above it. -/
def outlineLine (depth : Nat) (label : List Char) : List Char :=
  List.replicate (2 * depth) ' ' ++ label

mutual

/-- The outline of a tree: a line for each node and each leaf, before the lines of its children. -/
def Tree.outlineLines (depth : Nat) : Tree → List (List Char)
  | .leaf token => [outlineLine depth (token.category.name.toList ++ ' ' :: token.text.toList)]
  | .node construct children =>
    outlineLine depth construct.name.toList :: forestOutlineLines (depth + 1) children

def forestOutlineLines (depth : Nat) : List Tree → List (List Char)
  | [] => []
  | tree :: trees => tree.outlineLines depth ++ forestOutlineLines depth trees

end

def Tree.outline (tree : Tree) : String :=
  String.ofList ((tree.outlineLines 0).flatMap fun line => line ++ ['\n'])

end Jack
