import Jack.Layout

namespace Jack

inductive Rule where
  | class_ | classVarDec | subroutineDec | varDec
  | let_ | if_ | while_ | do_ | return_
  | parenthesizedTerm | callTerm | subscriptTerm | subscript
  deriving DecidableEq, Repr

def Rule.name : Rule → String
  | .class_ => "Class"
  | .classVarDec => "ClassVarDec"
  | .subroutineDec => "SubroutineDec"
  | .varDec => "VarDec"
  | .let_ => "Let"
  | .if_ => "If"
  | .while_ => "While"
  | .do_ => "Do"
  | .return_ => "Return"
  | .parenthesizedTerm => "ParenthesizedTerm"
  | .callTerm => "CallTerm"
  | .subscriptTerm => "SubscriptTerm"
  | .subscript => "Subscript"

/-- The node that a construct becomes; the three pieces of a bare subscript have none. -/
def Rule.construct? : Rule → Option Construct
  | .class_ => some .class_
  | .classVarDec => some .classVarDec
  | .subroutineDec => some .subroutineDec
  | .varDec => some .varDec
  | .let_ => some .letStatement
  | .if_ => some .ifStatement
  | .while_ => some .whileStatement
  | .do_ => some .doStatement
  | .return_ => some .returnStatement
  | .parenthesizedTerm | .callTerm | .subscriptTerm => some .term
  | .subscript => none

/-- What follows in a construct. A `token` place takes the comments before its token; a `run` is a
run of items up to a closer, and the closer; an `optional` part is there when the next token that
is no comment has the given sign; a `nested` part has a node of its own, after the comments before
it. -/
inductive Production where
  | done
  | token (expected : Expected) (next : Production)
  | run (closer : Char) (layout : Layout) (next : Production)
  | optional (sign : Expected) (part next : Production)
  | nested (construct : Construct) (part next : Production)
  deriving DecidableEq, Repr

namespace Production

def parenthesized (layout : Layout) (next : Production) : Production :=
  .token (.symbol '(') (.run ')' layout next)

def subscript (next : Production) : Production :=
  .token (.symbol '[') (.run ']' .expression next)

def braced (layout : Layout) (next : Production) : Production :=
  .token (.symbol '\x7b') (.run '\x7d' layout next)

def block (next : Production) : Production := braced (.grouped .statements) next

/-- A call after its first name: `(args)` or `.name(args)`. -/
def call (next : Production) : Production :=
  .optional (.symbol '.') (.token (.symbol '.') (.token .identifier .done))
    (parenthesized .arguments next)

def classBody : Production := .token .identifier (braced .spliced .done)

def wholeClass : Production := .token (.keyword .class_) classBody

end Production

def Rule.production : Rule → Production
  | .class_ => .classBody
  | .classVarDec | .varDec => .run ';' .spliced .done
  | .subroutineDec =>
    .token .returnType <| .token .identifier <|
      .parenthesized (.grouped .parameterList) <|
      .nested .subroutineBody (.braced .body .done) .done
  | .let_ =>
    .token .identifier <| .optional (.symbol '[') (.subscript .done) <|
      .token (.symbol '=') <| .run ';' .expression .done
  | .if_ =>
    .parenthesized .expression <| .block <|
      .optional (.keyword .else_) (.token (.keyword .else_) (.block .done)) .done
  | .while_ => .parenthesized .expression (.block .done)
  | .do_ => .token .identifier (.call (.token (.symbol ';') .done))
  | .return_ => .run ';' .value .done
  | .parenthesizedTerm => .run ')' .expression .done
  | .callTerm => .call .done
  | .subscriptTerm => .subscript .done
  | .subscript => .run ']' .expression .done

def Rule.build (rule : Rule) (head : Token) (rest : List Tree) : List Tree :=
  match rule.construct? with
  | some construct => [.node construct (.leaf head :: rest)]
  | none => .leaf head :: rest

inductive Choice where
  | opens (rule : Rule)
  | terminal
  | closer
  | forbidden
  deriving DecidableEq, Repr

def Choice.ofKeyword : Keyword → Choice
  | .class_ => .opens .class_
  | .static | .field => .opens .classVarDec
  | .constructor | .function | .method => .opens .subroutineDec
  | .var => .opens .varDec
  | .let_ => .opens .let_
  | .if_ => .opens .if_
  | .while_ => .opens .while_
  | .do_ => .opens .do_
  | .return_ => .opens .return_
  | _ => .terminal

def Choice.ofSymbol : Char → Choice
  | '(' => .opens .parenthesizedTerm
  | '[' => .opens .subscript
  | ')' | ']' | '\x7d' | ';' => .closer
  | '\x7b' => .forbidden
  | _ => .terminal

/-- A name is the start of a call or a subscript by the next token that is no comment. -/
def Choice.ofName (next : Option Token) : Choice :=
  match next with
  | none => .terminal
  | some t =>
    if t.isSymbol '(' || t.isSymbol '.' then .opens .callTerm
    else if t.isSymbol '[' then .opens .subscriptTerm
    else .terminal

def Choice.of (head : Token) (next : Option Token) : Choice :=
  match head.lexeme with
  | .keyword word => .ofKeyword word
  | .symbol char => .ofSymbol char
  | .identifier _ => .ofName next
  | _ => .terminal

end Jack
