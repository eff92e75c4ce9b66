import Jack.Token

namespace Jack

inductive Construct where
  | class_ | classVarDec | subroutineDec | parameterList | subroutineBody | varDec
  | statements | ifStatement | whileStatement | letStatement | doStatement | returnStatement
  | expression | term | expressionList
  deriving DecidableEq, Repr

def Construct.all : List Construct :=
  [.class_, .classVarDec, .subroutineDec, .parameterList, .subroutineBody, .varDec,
   .statements, .ifStatement, .whileStatement, .letStatement, .doStatement, .returnStatement,
   .expression, .term, .expressionList]

def Construct.name : Construct → String
  | .class_ => "class"
  | .classVarDec => "class_var_dec"
  | .subroutineDec => "subroutine_dec"
  | .parameterList => "parameter_list"
  | .subroutineBody => "subroutine_body"
  | .varDec => "var_dec"
  | .statements => "statements"
  | .ifStatement => "if_statement"
  | .whileStatement => "while_statement"
  | .letStatement => "let_statement"
  | .doStatement => "do_statement"
  | .returnStatement => "return_statement"
  | .expression => "expression"
  | .term => "term"
  | .expressionList => "expression_list"

def Construct.ofName? (name : String) : Option Construct :=
  Construct.all.find? fun construct => construct.name == name

@[simp] theorem Construct.ofName?_name (construct : Construct) :
    Construct.ofName? construct.name = some construct := by
  cases construct <;> decide

/-- A concrete parse tree, whose leaves are the tokens of the source in their order. -/
inductive Tree where
  | leaf (token : Token)
  | node (construct : Construct) (children : List Tree)
  deriving Repr

def Tree.token? : Tree → Option Token
  | .leaf token => some token
  | .node _ _ => none

def Tree.construct? : Tree → Option Construct
  | .leaf _ => none
  | .node construct _ => some construct

def Tree.children : Tree → List Tree
  | .leaf _ => []
  | .node _ children => children

def Tree.isSymbol (tree : Tree) (char : Char) : Bool :=
  match tree with
  | .leaf token => token.isSymbol char
  | .node _ _ => false

def Tree.isComment : Tree → Bool
  | .leaf token => token.isComment
  | .node _ _ => false

def Tree.isConstruct (tree : Tree) (construct : Construct) : Bool :=
  tree.construct? == some construct

mutual

def Tree.tokens : Tree → List Token
  | .leaf token => [token]
  | .node _ children => forestTokens children

def forestTokens : List Tree → List Token
  | [] => []
  | tree :: trees => tree.tokens ++ forestTokens trees

end

@[simp] theorem forestTokens_append (first second : List Tree) :
    forestTokens (first ++ second) = forestTokens first ++ forestTokens second := by
  induction first with
  | nil => rfl
  | cons tree trees ih => simp only [List.cons_append, forestTokens, ih, List.append_assoc]

/-- What a path of child indices meets below a tree, and the last node it enters: the walk ends
at a leaf, or at an index that has no child, which it meets as `none`. -/
def Tree.walk : Tree → List Nat → List (Option Tree) × Tree
  | tree, [] => ([], tree)
  | tree, index :: path =>
    match tree.children[index]? with
    | none => ([none], tree)
    | some (.leaf token) => ([some (.leaf token)], tree)
    | some (.node construct children) =>
      let (met, last) := Tree.walk (.node construct children) path
      (some (.node construct children) :: met, last)

end Jack
