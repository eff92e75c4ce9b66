import Jack.Session
import Jack.TokenStream

namespace Jack

structure Options where
  keepComments : Bool := true
  deriving DecidableEq, Repr

def Options.select (options : Options) (tokens : List Token) : List Token :=
  if options.keepComments then tokens else withoutComments tokens

inductive SourceError where
  | lexical (error : LexicalError)
  | grammatical (error : ParseError)
  deriving DecidableEq, Repr

def SourceError.message : SourceError → String
  | .lexical error => error.message
  | .grammatical error => error.message

/-- The tokens of a list of line records, comments among them. -/
def tokenizeLines (records : List SourceLine) : Traced LexicalError (List Token) :=
  match tokenize records with
  | .error e => ⟨.error e, []⟩
  | .ok tokens => ⟨.ok tokens, [.scanned records.length tokens.length]⟩

def tokenizeText (options : Options) (text : String) : Traced LexicalError (List Token) :=
  match sourceLines text with
  | .error e => ⟨.error e, []⟩
  | .ok records =>
    (tokenizeLines records).andThen fun tokens =>
      let selected := options.select tokens
      ⟨.ok selected, [.kept records.length selected.length]⟩

def parseTokens (options : Options) (tokens : List Token) : Traced ParseError Tree :=
  parse (options.select tokens)

def parseLines (records : List SourceLine) : Traced SourceError Tree :=
  ((tokenizeLines records).mapError .lexical).andThen fun tokens =>
    (parse tokens).mapError .grammatical

def parseText (options : Options) (text : String) : Traced SourceError Tree :=
  ((tokenizeText options text).mapError .lexical).andThen fun tokens =>
    (parseTokens options tokens).mapError .grammatical

end Jack
