import Jack.Proofs.Derivation

namespace Jack.Abstract

inductive BinaryOperator where
  | add | subtract | multiply | divide | and | or | less | greater | equal
  deriving DecidableEq, Repr

def BinaryOperator.char : BinaryOperator → Char
  | .add => '+'
  | .subtract => '-'
  | .multiply => '*'
  | .divide => '/'
  | .and => '&'
  | .or => '|'
  | .less => '<'
  | .greater => '>'
  | .equal => '='

inductive UnaryOperator where
  | negate | not
  deriving DecidableEq, Repr

def UnaryOperator.char : UnaryOperator → Char
  | .negate => '-'
  | .not => '~'

inductive Constant where
  | true_ | false_ | null | this
  deriving DecidableEq, Repr

def Constant.keyword : Constant → Keyword
  | .true_ => .true_
  | .false_ => .false_
  | .null => .null
  | .this => .this

inductive VariableType where
  | int | char | boolean
  | class_ (name : String)
  deriving DecidableEq, Repr

mutual

inductive Term where
  | integer (value : UInt64)
  | string (body : String)
  | constant (constant : Constant)
  | name (name : String)
  | element (name : String) (index : Expression)
  | call (name : String) (member : Option String) (arguments : List Expression)
  | parenthesized (inner : Expression)
  | unary (operator : UnaryOperator) (operand : Term)

/-- A term, or a term and an operator before an expression. -/
inductive Expression where
  | term (term : Term)
  | binary (first : Term) (operator : BinaryOperator) (rest : Expression)

end

inductive Statement where
  | assign (name : String) (index : Option Expression) (value : Expression)
  | if_ (condition : Expression) (body : List Statement)
  | ifElse (condition : Expression) (body otherwise : List Statement)
  | while_ (condition : Expression) (body : List Statement)
  | do_ (name : String) (member : Option String) (arguments : List Expression)
  | return_ (value : Option Expression)

/-- A declaration of variables of one type; there is at least one. -/
structure Declaration where
  type : VariableType
  first : String
  rest : List String

inductive Storage where
  | static | field
  deriving DecidableEq, Repr

inductive SubroutineKind where
  | constructor | function | method
  deriving DecidableEq, Repr

/-- A subroutine, which is void when it has no return type. -/
structure Subroutine where
  kind : SubroutineKind
  returnType : Option VariableType
  name : String
  parameters : List (VariableType × String)
  locals : List Declaration
  statements : List Statement

structure Class where
  name : String
  declarations : List (Storage × Declaration)
  subroutines : List Subroutine

section Tokens

def reserved (keyword : Keyword) : Token := ⟨.keyword keyword, 0⟩

def mark (char : Char) : Token := ⟨.symbol char, 0⟩

def identifier (name : String) : Token := ⟨.identifier name, 0⟩

def VariableType.token : VariableType → Token
  | .int => reserved .int
  | .char => reserved .char
  | .boolean => reserved .boolean
  | .class_ name => identifier name

def memberTokens : Option String → List Token
  | none => []
  | some name => [mark '.', identifier name]

mutual

def Term.tokens : Term → List Token
  | .integer value => [⟨.integer value, 0⟩]
  | .string body => [⟨.string body, 0⟩]
  | .constant constant => [reserved constant.keyword]
  | .name name => [identifier name]
  | .element name index => identifier name :: mark '[' :: (index.tokens ++ [mark ']'])
  | .call name member arguments =>
    identifier name :: (memberTokens member ++ mark '(' :: (argumentTokens arguments ++ [mark ')']))
  | .parenthesized inner => mark '(' :: (inner.tokens ++ [mark ')'])
  | .unary operator operand => mark operator.char :: operand.tokens

def Expression.tokens : Expression → List Token
  | .term term => term.tokens
  | .binary first operator rest => first.tokens ++ mark operator.char :: rest.tokens

def argumentTokens : List Expression → List Token
  | [] => []
  | [last] => last.tokens
  | first :: second :: arguments =>
    first.tokens ++ mark ',' :: argumentTokens (second :: arguments)

end

def valueTokens : Option Expression → List Token
  | none => []
  | some value => value.tokens

def indexTokens : Option Expression → List Token
  | none => []
  | some index => mark '[' :: (index.tokens ++ [mark ']'])

mutual

def Statement.tokens : Statement → List Token
  | .assign name index value =>
    reserved .let_ :: identifier name :: (indexTokens index ++
      mark '=' :: (value.tokens ++ [mark ';']))
  | .if_ condition body =>
    reserved .if_ :: mark '(' :: (condition.tokens ++
      mark ')' :: mark '\x7b' :: (statementTokens body ++ [mark '\x7d']))
  | .ifElse condition body otherwise =>
    reserved .if_ :: mark '(' :: (condition.tokens ++
      mark ')' :: mark '\x7b' :: (statementTokens body ++
        mark '\x7d' :: reserved .else_ :: mark '\x7b' ::
          (statementTokens otherwise ++ [mark '\x7d'])))
  | .while_ condition body =>
    reserved .while_ :: mark '(' :: (condition.tokens ++
      mark ')' :: mark '\x7b' :: (statementTokens body ++ [mark '\x7d']))
  | .do_ name member arguments =>
    reserved .do_ :: identifier name :: (memberTokens member ++
      mark '(' :: (argumentTokens arguments ++ [mark ')', mark ';']))
  | .return_ value => reserved .return_ :: (valueTokens value ++ [mark ';'])

def statementTokens : List Statement → List Token
  | [] => []
  | statement :: statements => statement.tokens ++ statementTokens statements

end

def moreNames (names : List String) : List Token :=
  names.flatMap fun name => [mark ',', identifier name]

def Declaration.tokens (declaration : Declaration) : List Token :=
  declaration.type.token :: identifier declaration.first ::
    (moreNames declaration.rest ++ [mark ';'])

def Storage.keyword : Storage → Keyword
  | .static => .static
  | .field => .field

def SubroutineKind.keyword : SubroutineKind → Keyword
  | .constructor => .constructor
  | .function => .function
  | .method => .method

def returnToken : Option VariableType → Token
  | none => reserved .void
  | some type => type.token

def parameterTokens : List (VariableType × String) → List Token
  | [] => []
  | [(type, name)] => [type.token, identifier name]
  | (type, name) :: second :: parameters =>
    type.token :: identifier name :: mark ',' :: parameterTokens (second :: parameters)

def Subroutine.bodyTokens (subroutine : Subroutine) : List Token :=
  subroutine.locals.flatMap (fun declaration => reserved .var :: declaration.tokens) ++
    statementTokens subroutine.statements

def Subroutine.tokens (subroutine : Subroutine) : List Token :=
  reserved subroutine.kind.keyword :: returnToken subroutine.returnType ::
    identifier subroutine.name :: mark '(' :: (parameterTokens subroutine.parameters ++
      mark ')' :: mark '\x7b' :: (subroutine.bodyTokens ++ [mark '\x7d']))

/-- The tokens of a class, all with line number zero. -/
def Class.tokens (class_ : Class) : List Token :=
  reserved .class_ :: identifier class_.name :: mark '\x7b' ::
    (class_.declarations.flatMap (fun (storage, declaration) =>
        reserved storage.keyword :: declaration.tokens) ++
      class_.subroutines.flatMap Subroutine.tokens ++ [mark '\x7d'])

end Tokens

section Trees

mutual

/-- The children of an expression that a term is: a term of its own, after the operators before
it. -/
def Term.trees : Term → List Tree
  | .integer value => [.node .term [.leaf ⟨.integer value, 0⟩]]
  | .string body => [.node .term [.leaf ⟨.string body, 0⟩]]
  | .constant constant => [.node .term [.leaf (reserved constant.keyword)]]
  | .name name => [.node .term [.leaf (identifier name)]]
  | .element name index =>
    [.node .term [.leaf (identifier name), .leaf (mark '['), .node .expression index.trees,
      .leaf (mark ']')]]
  | .call name member arguments =>
    [.node .term (.leaf (identifier name) :: (leaves (memberTokens member) ++
      [.leaf (mark '('), .node .expressionList (argumentTrees arguments), .leaf (mark ')')]))]
  | .parenthesized inner =>
    [.node .term [.leaf (mark '('), .node .expression inner.trees, .leaf (mark ')')]]
  | .unary operator operand => .leaf (mark operator.char) :: operand.trees

def Expression.trees : Expression → List Tree
  | .term term => term.trees
  | .binary first operator rest => first.trees ++ .leaf (mark operator.char) :: rest.trees

def argumentTrees : List Expression → List Tree
  | [] => []
  | [last] => [.node .expression last.trees]
  | first :: second :: arguments =>
    .node .expression first.trees :: .leaf (mark ',') :: argumentTrees (second :: arguments)

end

def Expression.tree (expression : Expression) : Tree := .node .expression expression.trees

def valueTrees : Option Expression → List Tree
  | none => []
  | some value => [value.tree]

def indexTrees : Option Expression → List Tree
  | none => []
  | some index => [.leaf (mark '['), index.tree, .leaf (mark ']')]

def blockTrees (statements : List Tree) : List Tree :=
  [.leaf (mark '\x7b'), .node .statements statements, .leaf (mark '\x7d')]

mutual

def Statement.tree : Statement → Tree
  | .assign name index value =>
    .node .letStatement (.leaf (reserved .let_) :: .leaf (identifier name) :: (indexTrees index ++
      [.leaf (mark '='), value.tree, .leaf (mark ';')]))
  | .if_ condition body =>
    .node .ifStatement (.leaf (reserved .if_) :: .leaf (mark '(') :: condition.tree ::
      .leaf (mark ')') :: blockTrees (statementTrees body))
  | .ifElse condition body otherwise =>
    .node .ifStatement (.leaf (reserved .if_) :: .leaf (mark '(') :: condition.tree ::
      .leaf (mark ')') :: (blockTrees (statementTrees body) ++
        .leaf (reserved .else_) :: blockTrees (statementTrees otherwise)))
  | .while_ condition body =>
    .node .whileStatement (.leaf (reserved .while_) :: .leaf (mark '(') :: condition.tree ::
      .leaf (mark ')') :: blockTrees (statementTrees body))
  | .do_ name member arguments =>
    .node .doStatement (.leaf (reserved .do_) :: .leaf (identifier name) ::
      (leaves (memberTokens member) ++ [.leaf (mark '('),
        .node .expressionList (argumentTrees arguments), .leaf (mark ')'), .leaf (mark ';')]))
  | .return_ value =>
    .node .returnStatement (.leaf (reserved .return_) :: (valueTrees value ++ [.leaf (mark ';')]))

def statementTrees : List Statement → List Tree
  | [] => []
  | statement :: statements => statement.tree :: statementTrees statements

end

def Declaration.tree (construct : Construct) (keyword : Keyword) (declaration : Declaration) :
    Tree :=
  .node construct (leaves (reserved keyword :: declaration.tokens))

def Subroutine.bodyTrees (subroutine : Subroutine) : List Tree :=
  subroutine.locals.map (Declaration.tree .varDec .var) ++
    [.node .statements (statementTrees subroutine.statements)]

def Subroutine.tree (subroutine : Subroutine) : Tree :=
  .node .subroutineDec [.leaf (reserved subroutine.kind.keyword),
    .leaf (returnToken subroutine.returnType), .leaf (identifier subroutine.name),
    .leaf (mark '('), .node .parameterList (leaves (parameterTokens subroutine.parameters)),
    .leaf (mark ')'), .node .subroutineBody (.leaf (mark '\x7b') ::
      (subroutine.bodyTrees ++ [.leaf (mark '\x7d')]))]

/-- The tree of a class, whose leaves all have line number zero. -/
def Class.tree (class_ : Class) : Tree :=
  .node .class_ (.leaf (reserved .class_) :: .leaf (identifier class_.name) ::
    .leaf (mark '\x7b') :: (class_.declarations.map (fun (storage, declaration) =>
        declaration.tree .classVarDec storage.keyword) ++
      class_.subroutines.map Subroutine.tree ++ [.leaf (mark '\x7d')]))

end Trees

end Jack.Abstract
