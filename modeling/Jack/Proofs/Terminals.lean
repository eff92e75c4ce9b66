import Jack.Parser

namespace Jack

/-- The tokens that may stand where the grammar asks for one. -/
inductive Terminal : Expected → Token → Prop where
  | symbol : Terminal (.symbol char) ⟨.symbol char, line⟩
  | keyword : Terminal (.keyword word) ⟨.keyword word, line⟩
  | identifier : Terminal .identifier ⟨.identifier name, line⟩
  | builtInType : Terminal .returnType ⟨.keyword word, line⟩
  | className : Terminal .returnType ⟨.identifier name, line⟩

inductive Comment : Token → Prop where
  | intro : Comment ⟨.comment text, line⟩

def Gap (word : List Token) : Prop := ∀ t ∈ word, Comment t

/-- A gap, and then a token that the place expects. -/
inductive Spaced (expected : Expected) : List Token → Prop where
  | intro (hg : Gap gap) (ht : Terminal expected t) : Spaced expected (gap ++ [t])

/-- The next token that is no comment, when `word` is followed by `next`. -/
def following (word : List Token) (next : Option Token) : Option Token :=
  match word with
  | [] => next
  | t :: word =>
    match t.lexeme with
    | .comment _ => following word next
    | _ => some t

/-- A name before `next` is no call and no element of an array. -/
def Ending (next : Option Token) : Prop :=
  ∀ t, next = some t →
    ¬ Terminal (.symbol '(') t ∧ ¬ Terminal (.symbol '.') t ∧ ¬ Terminal (.symbol '[') t

def NoElse (next : Option Token) : Prop := ∀ t, next = some t → ¬ Terminal (.keyword .else_) t

/-- The tokens that are items on their own, before the next token that is no comment. -/
inductive Plain : Token → Option Token → Prop where
  | keyword (h : word ∈ [Keyword.int, .char, .boolean, .void, .true_, .false_, .null, .this,
      .else_]) : Plain ⟨.keyword word, line⟩ next
  | symbol (h : char ∉ ['(', '[', ')', ']', '\x7b', '\x7d', ';']) :
      Plain ⟨.symbol char, line⟩ next
  | identifier (h : Ending next) : Plain ⟨.identifier name, line⟩ next
  | integer : Plain ⟨.integer value, line⟩ next
  | string : Plain ⟨.string body, line⟩ next
  | comment : Plain ⟨.comment text, line⟩ next

inductive Qualifier : List Token → Prop where
  | absent : Qualifier []
  | present (hd : Spaced (.symbol '.') dot) (hn : Spaced .identifier name) :
      Qualifier (dot ++ name)

/-- The reader accepts the terminals of the grammar. -/
theorem terminal_iff : Terminal expected t ↔ expected.accepts t := by
  constructor
  · intro h
    cases h <;> simp [Expected.accepts, Token.isSymbol_iff, Token.isKeyword_iff,
      Token.isIdentifier_iff, Token.keyword?]
  · intro h
    obtain ⟨lexeme, line⟩ := t
    cases expected with
    | symbol char =>
      obtain rfl : lexeme = .symbol char := Token.isSymbol_iff.1 h
      exact .symbol
    | keyword word =>
      obtain rfl : lexeme = .keyword word := Token.isKeyword_iff.1 h
      exact .keyword
    | identifier =>
      obtain ⟨name, rfl⟩ : ∃ name, lexeme = .identifier name := Token.isIdentifier_iff.1 h
      exact .identifier
    | returnType =>
      cases lexeme with
      | keyword => exact .builtInType
      | identifier => exact .className
      | symbol | integer | string | comment => cases h

@[simp] theorem terminal_symbol_iff : Terminal (.symbol char) t ↔ t.lexeme = .symbol char :=
  terminal_iff.trans Token.isSymbol_iff

@[simp] theorem terminal_keyword_iff : Terminal (.keyword word) t ↔ t.lexeme = .keyword word :=
  terminal_iff.trans Token.isKeyword_iff

@[simp] theorem terminal_identifier_iff :
    Terminal .identifier t ↔ ∃ name, t.lexeme = .identifier name :=
  terminal_iff.trans Token.isIdentifier_iff

theorem comment_iff : Comment t ↔ t.isComment := by
  obtain ⟨lexeme, line⟩ := t
  constructor
  · intro h
    cases h
    rfl
  · intro h
    obtain ⟨text, rfl⟩ : ∃ text, lexeme = .comment text := Token.isComment_iff.1 h
    exact .intro

theorem gap_iff : Gap word ↔ ∀ t ∈ word, t.isComment := by
  simp only [Gap, comment_iff]

theorem gap_nil : Gap [] := by
  intro t h
  cases h

theorem following_eq (word : List Token) (next : Option Token) :
    following word next = (Parser.significant? word).or next := by
  induction word with
  | nil => rfl
  | cons t word ih =>
    obtain ⟨lexeme, line⟩ := t
    cases lexeme with
    | comment => exact ih
    | keyword | symbol | identifier | integer | string => rfl

theorem Terminal.not_isComment (h : Terminal expected t) : ¬ t.isComment :=
  Expected.not_isComment (terminal_iff.1 h)

end Jack
