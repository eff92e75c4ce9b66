import Jack.Log

namespace Jack

/-- A token list and the number of its tokens that are read. After a failure the session stays
where the parser stopped. -/
structure Session where
  tokens : List Token
  position : Nat
  deriving DecidableEq, Repr

def Session.start (tokens : List Token) : Session := ⟨tokens, 0⟩

def Session.remaining (session : Session) : List Token := session.tokens.drop session.position

def Session.run (session : Session) (parser : Parser α) : Traced ParseError α × Session :=
  match parser ⟨session.remaining, #[]⟩ with
  | .ok a cursor =>
    (⟨.ok a, cursor.trace.toList.map .dispatched⟩,
      { session with position := session.tokens.length - cursor.unread.length })
  | .error e cursor =>
    (⟨.error e, cursor.trace.toList.map .dispatched⟩,
      { session with position := session.tokens.length - cursor.unread.length })

def Session.parseClass (session : Session) : Traced ParseError Tree × Session :=
  session.run Parser.classTree

/-- Read a class that ends the input, and report it. -/
def Session.parseProgram (session : Session) : Traced ParseError Tree × Session :=
  let (stage, after) := session.run Parser.program
  (stage.andThen fun tree =>
    ⟨.ok tree, [.parsed tree.children.length session.tokens.length]⟩, after)

def parse (tokens : List Token) : Traced ParseError Tree := (Session.start tokens).parseProgram.1

end Jack
