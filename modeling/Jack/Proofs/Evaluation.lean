import Jack.Session

namespace Jack

namespace Parser

theorem bind_ok {p : Parser α} (f : α → Parser β) (h : p cursor = .ok a after) :
    (p >>= f) cursor = f a after := by
  simp only [bind, EStateM.bind, h]

theorem bind_error {p : Parser α} (f : α → Parser β) (h : p cursor = .error e after) :
    (p >>= f) cursor = .error e after := by
  simp only [bind, EStateM.bind, h]

theorem comments_apply (cursor : Cursor) :
    comments cursor = .ok ((cursor.unread.takeWhile Token.isComment).map Tree.leaf)
      { cursor with unread := cursor.unread.dropWhile Token.isComment } := rfl

theorem not_isComment_of_dropWhile {ts : List Token}
    (h : (ts.dropWhile Token.isComment).head? = some t) : ¬ t.isComment := by
  have hd := List.head?_dropWhile_not Token.isComment ts
  rw [h] at hd
  simp [hd]

theorem optionally_apply (sign : Expected) (part : Parser (List Tree)) (cursor : Cursor) :
    optionally sign part cursor =
      if (significant? cursor.unread).any sign.accepts then part cursor else .ok [] cursor := by
  change (if _ then part else pure []) cursor = _
  split <;> rfl

theorem expect_cons (expected : Expected) (t : Token) (rest : List Token)
    (trace : Array Dispatch) :
    expect expected ⟨t :: rest, trace⟩ =
      if expected.accepts t then .ok (.leaf t) ⟨rest, trace⟩
      else .error (.unexpected expected t) ⟨t :: rest, trace⟩ := by
  change (if expected.accepts t then _ else _ : Parser Tree) _ = _
  split <;> rfl

section Items

variable {items : Char → Parser (List Tree)} {head : Token} {rest : List Token}

theorem item_opens (h : Choice.of head (significant? rest) = .opens rule) (cursor : Cursor) :
    item items head rest cursor =
      (do return some (rule.build head (← rule.production.read items)) : Parser _)
        ⟨rest, cursor.trace.push (.opened rule head.line)⟩ := by
  simp only [item, h]
  rfl

theorem item_terminal (h : Choice.of head (significant? rest) = .terminal) (cursor : Cursor) :
    item items head rest cursor = .ok (some [.leaf head]) { cursor with unread := rest } := by
  simp only [item, h]
  rfl

theorem item_closer (h : Choice.of head (significant? rest) = .closer) (cursor : Cursor) :
    item items head rest cursor =
      .ok none { cursor with trace := cursor.trace.push (.closer head.line) } := by
  simp only [item, h]
  rfl

theorem item_forbidden (h : Choice.of head (significant? rest) = .forbidden) (cursor : Cursor) :
    item items head rest cursor = .error (.noRule head) cursor := by
  simp only [item, h]
  rfl

end Items

theorem items_nil (limit : Nat) (closer : Char) (trace : Array Dispatch) :
    items limit closer ⟨[], trace⟩ = .error (.unexpectedEnd (.symbol closer)) ⟨[], trace⟩ := by
  cases limit <;> rfl

theorem items_closer (limit : Nat) (h : head.isSymbol closer) (rest : List Token)
    (trace : Array Dispatch) :
    items (limit + 1) closer ⟨head :: rest, trace⟩ = .ok [] ⟨head :: rest, trace⟩ := by
  change (if head.isSymbol closer then _ else _ : Parser _) _ = _
  exact congrFun (if_pos h) _

theorem items_cons (limit : Nat) (h : ¬ head.isSymbol closer) (rest : List Token)
    (trace : Array Dispatch) :
    items (limit + 1) closer ⟨head :: rest, trace⟩ =
      (do
        match ← item (items limit) head rest with
        | none => fail (.mismatchedCloser closer head)
        | some trees => return trees ++ (← items limit closer) : Parser _)
        ⟨head :: rest, trace⟩ := by
  change (if head.isSymbol closer then _ else _ : Parser _) _ = _
  exact congrFun (if_neg h) _

theorem classTree_apply (cursor : Cursor) :
    classTree cursor =
      (do
        let children ← Production.wholeClass.read (items cursor.unread.length)
        return .node .class_ (children ++ (← comments)) : Parser Tree) cursor := rfl

theorem program_apply (cursor : Cursor) :
    program cursor =
      match classTree cursor with
      | .error e after => .error e after
      | .ok tree ⟨[], trace⟩ => .ok tree ⟨[], trace⟩
      | .ok _ ⟨t :: rest, trace⟩ => .error (.trailingInput t) ⟨t :: rest, trace⟩ := by
  rw [program]
  cases h : classTree cursor with
  | error e after => rw [bind_error _ h]
  | ok tree after =>
    rw [bind_ok _ h]
    obtain ⟨_ | ⟨t, rest⟩, trace⟩ := after <;> rfl

theorem program_ok_iff {tree : Tree} {cursor after : Cursor} :
    program cursor = .ok tree after ↔ classTree cursor = .ok tree after ∧ after.unread = [] := by
  rw [program_apply]
  constructor
  · intro h
    split at h
    · cases h
    · next hc =>
      cases h
      exact ⟨hc, rfl⟩
    · cases h
  · rintro ⟨hc, hu⟩
    obtain ⟨unread, trace⟩ := after
    dsimp only at hu
    subst unread
    rw [hc]

/-- The value or the error of a reader. -/
def answer (p : Parser α) (ts : List Token) : Except ParseError α :=
  match p ⟨ts, #[]⟩ with
  | .ok a _ => .ok a
  | .error e _ => .error e

/-- The tokens that a reader leaves, also when it fails. -/
def remainder (p : Parser α) (ts : List Token) : List Token :=
  match p ⟨ts, #[]⟩ with
  | .ok _ after => after.unread
  | .error _ after => after.unread

theorem answer_eq_ok_iff {p : Parser α} :
    p.answer ts = .ok a ↔ ∃ after, p ⟨ts, #[]⟩ = .ok a after := by
  rw [answer]
  cases p ⟨ts, #[]⟩ <;> simp

end Parser

namespace Session

theorem run_result (session : Session) (p : Parser α) :
    (session.run p).1.result = p.answer session.remaining := by
  rw [run, Parser.answer]
  split <;> simp only [*]

theorem run_tokens (session : Session) (p : Parser α) :
    (session.run p).2.tokens = session.tokens := by
  rw [run]
  split <;> rfl

theorem run_position (session : Session) (p : Parser α) :
    (session.run p).2.position =
      session.tokens.length - (p.remainder session.remaining).length := by
  rw [run, Parser.remainder]
  split <;> simp only [*]

theorem parseProgram_result (session : Session) :
    session.parseProgram.1.result = Parser.program.answer session.remaining := by
  rw [← run_result, parseProgram]
  dsimp only [Traced.andThen]
  split <;> simp only [*]

end Session

theorem parse_result (ts : List Token) : (parse ts).result = Parser.program.answer ts :=
  (Session.start ts).parseProgram_result

theorem parse_eq_ok_iff :
    (parse ts).result = .ok tree ↔ ∃ trace, Parser.classTree ⟨ts, #[]⟩ = .ok tree ⟨[], trace⟩ := by
  rw [parse_result, Parser.answer_eq_ok_iff]
  simp only [Parser.program_ok_iff]
  constructor
  · rintro ⟨⟨unread, trace⟩, hc, rfl⟩
    exact ⟨trace, hc⟩
  · rintro ⟨trace, hc⟩
    exact ⟨_, hc, rfl⟩

end Jack
