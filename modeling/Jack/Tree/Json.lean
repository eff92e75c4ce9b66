import Jack.Json
import Jack.Tree

namespace Jack

def Lexeme.toJson : Lexeme → Json
  | .integer value => .number value.toNat
  | lexeme => .string lexeme.text

def Token.toJson (t : Token) : Json :=
  .object [("kind", .string t.category.name), ("value", t.lexeme.toJson), ("line", .number t.line)]

mutual

def Tree.toJson : Tree → Json
  | .leaf token => token.toJson
  | .node construct children =>
    .object [("kind", .string construct.name), ("children", .array (forestToJson children))]

def forestToJson : List Tree → List Json
  | [] => []
  | tree :: trees => tree.toJson :: forestToJson trees

end

def tokensToJson (ts : List Token) : Json := .array (ts.map Token.toJson)

end Jack
