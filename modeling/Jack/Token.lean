import Jack.Keyword

namespace Jack

inductive Category where
  | keyword | symbol | identifier | integerConstant | stringConstant | comment
  deriving DecidableEq, Repr

def Category.all : List Category :=
  [.keyword, .symbol, .identifier, .integerConstant, .stringConstant, .comment]

def Category.name : Category → String
  | .keyword => "keyword"
  | .symbol => "symbol"
  | .identifier => "identifier"
  | .integerConstant => "integer_constant"
  | .stringConstant => "string_constant"
  | .comment => "comment"

/-- What a token says, apart from where it stands. The body of a string constant has no quotes,
and the text of a comment keeps its markers. -/
inductive Lexeme where
  | keyword (word : Keyword)
  | symbol (char : Char)
  | identifier (name : String)
  | integer (value : UInt64)
  | string (body : String)
  | comment (text : String)
  deriving DecidableEq, Repr

def Lexeme.category : Lexeme → Category
  | .keyword _ => .keyword
  | .symbol _ => .symbol
  | .identifier _ => .identifier
  | .integer _ => .integerConstant
  | .string _ => .stringConstant
  | .comment _ => .comment

def Lexeme.text : Lexeme → String
  | .keyword word => word.spelling
  | .symbol char => char.toString
  | .identifier name => name
  | .integer value => value.toNat.repr
  | .string body => body
  | .comment text => text

/-- The phrase by which messages and listings name a lexeme. -/
def Lexeme.description : Lexeme → String
  | .keyword word => "keyword '" ++ word.spelling ++ "'"
  | .symbol char => "symbol '" ++ char.toString ++ "'"
  | .identifier name => "identifier '" ++ name ++ "'"
  | .integer value => "integer constant " ++ value.toNat.repr
  | .string body => "string constant \"" ++ body ++ "\""
  | .comment text => "comment '" ++ text ++ "'"

/-- A lexeme and the number of its source line, counted from one. -/
structure Token where
  lexeme : Lexeme
  line : Nat
  deriving DecidableEq, Repr

def Token.category (t : Token) : Category := t.lexeme.category

def Token.text (t : Token) : String := t.lexeme.text

def Token.description (t : Token) : String := t.lexeme.description

def Token.keyword? (t : Token) : Option Keyword :=
  match t.lexeme with
  | .keyword word => some word
  | _ => none

def Token.symbol? (t : Token) : Option Char :=
  match t.lexeme with
  | .symbol char => some char
  | _ => none

def Token.isKeyword (t : Token) (word : Keyword) : Bool := t.keyword? == some word

def Token.isSymbol (t : Token) (char : Char) : Bool := t.symbol? == some char

def Token.isIdentifier (t : Token) : Bool :=
  match t.lexeme with
  | .identifier _ => true
  | _ => false

def Token.isComment (t : Token) : Bool :=
  match t.lexeme with
  | .comment _ => true
  | _ => false

theorem Token.isKeyword_iff {t : Token} : t.isKeyword word ↔ t.lexeme = .keyword word := by
  obtain ⟨lexeme, line⟩ := t
  cases lexeme <;> simp [isKeyword, keyword?]

theorem Token.isSymbol_iff {t : Token} : t.isSymbol char ↔ t.lexeme = .symbol char := by
  obtain ⟨lexeme, line⟩ := t
  cases lexeme <;> simp [isSymbol, symbol?]

theorem Token.isIdentifier_iff {t : Token} :
    t.isIdentifier ↔ ∃ name, t.lexeme = .identifier name := by
  obtain ⟨lexeme, line⟩ := t
  cases lexeme <;> simp [isIdentifier]

theorem Token.isComment_iff {t : Token} : t.isComment ↔ ∃ text, t.lexeme = .comment text := by
  obtain ⟨lexeme, line⟩ := t
  cases lexeme <;> simp [isComment]

def withoutComments (ts : List Token) : List Token := ts.filter fun t => !t.isComment

end Jack
