namespace Jack

/-- What can go wrong before parsing, with the line where the open literal or comment starts. -/
inductive LexicalError where
  | unterminatedString (line : Nat)
  | unterminatedComment (line : Nat)
  deriving DecidableEq, Repr

def LexicalError.message : LexicalError → String
  | .unterminatedString line =>
    "Lexer error at line " ++ line.repr ++ ": unterminated string literal"
  | .unterminatedComment line =>
    "Lexer error at line " ++ line.repr ++ ": unterminated block comment"

end Jack
