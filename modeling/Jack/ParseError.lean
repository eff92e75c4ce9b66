import Jack.Token

namespace Jack

inductive Expected where
  | symbol (char : Char)
  | keyword (word : Keyword)
  | identifier
  | returnType
  deriving DecidableEq, Repr

def Expected.accepts : Expected → Token → Bool
  | .symbol char, t => t.isSymbol char
  | .keyword word, t => t.isKeyword word
  | .identifier, t => t.isIdentifier
  | .returnType, t => t.keyword?.isSome || t.isIdentifier

theorem Expected.not_isComment {expected : Expected} (h : expected.accepts t) :
    ¬ t.isComment := by
  rw [Token.isComment_iff]
  rintro ⟨text, ht⟩
  cases expected <;>
    simp [accepts, Token.isSymbol_iff, Token.isKeyword_iff, Token.isIdentifier_iff,
      Token.keyword?, ht] at h

theorem Token.not_isComment_of_isSymbol {t : Token} (h : t.isSymbol char) : ¬ t.isComment :=
  Expected.not_isComment (show (Expected.symbol char).accepts t from h)

def Expected.description : Expected → String
  | .symbol char => "'" ++ char.toString ++ "'"
  | .keyword word => "'" ++ word.spelling ++ "'"
  | .identifier => "an identifier"
  | .returnType => "a return type"

/-- Why a token list is not a class. Every error but the end of the input carries the token that it
is about; a missing argument is about the comma that should stand next to it. -/
inductive ParseError where
  | unexpectedEnd (expected : Expected)
  | unexpected (expected : Expected) (found : Token)
  | missingArgument (comma : Token)
  | noRule (found : Token)
  | mismatchedCloser (closer : Char) (found : Token)
  | trailingInput (found : Token)
  deriving DecidableEq, Repr

def ParseError.place (t : Token) : String := "Parse error at line " ++ t.line.repr ++ ": "

def ParseError.message : ParseError → String
  | .unexpectedEnd expected =>
    "Parse error: unexpected end of input, expected " ++ expected.description
  | .unexpected expected found =>
    place found ++ "expected " ++ expected.description ++ ", found " ++ found.description
  | .missingArgument comma => place comma ++ "expected an expression, found ','"
  | .noRule found => place found ++ "no grammar rule starts with " ++ found.description
  | .mismatchedCloser closer found =>
    place found ++ "found " ++ found.description ++ " while looking for " ++
      (Expected.symbol closer).description
  | .trailingInput found =>
    place found ++ "unexpected " ++ found.description ++ " after the class body"

end Jack
