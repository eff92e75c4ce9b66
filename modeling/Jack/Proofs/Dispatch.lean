import Jack.Proofs.Derivation

namespace Jack

/-- What an item that a rule reads starts with, before the next token that is no comment. -/
def Rule.Starts : Rule → Token → Option Token → Prop
  | .class_, head, _ => Terminal (.keyword .class_) head
  | .classVarDec, head, _ => Terminal (.keyword .static) head ∨ Terminal (.keyword .field) head
  | .subroutineDec, head, _ =>
    Terminal (.keyword .constructor) head ∨ Terminal (.keyword .function) head ∨
      Terminal (.keyword .method) head
  | .varDec, head, _ => Terminal (.keyword .var) head
  | .let_, head, _ => Terminal (.keyword .let_) head
  | .if_, head, _ => Terminal (.keyword .if_) head
  | .while_, head, _ => Terminal (.keyword .while_) head
  | .do_, head, _ => Terminal (.keyword .do_) head
  | .return_, head, _ => Terminal (.keyword .return_) head
  | .parenthesizedTerm, head, _ => Terminal (.symbol '(') head
  | .callTerm, head, next =>
    Terminal .identifier head ∧
      ∃ t, next = some t ∧ (Terminal (.symbol '(') t ∨ Terminal (.symbol '.') t)
  | .subscriptTerm, head, next =>
    Terminal .identifier head ∧ ∃ t, next = some t ∧ Terminal (.symbol '[') t
  | .subscript, head, _ => Terminal (.symbol '[') head

namespace Choice

theorem ofKeyword_opens_iff :
    ofKeyword word = .opens rule ↔ rule.Starts ⟨.keyword word, line⟩ next := by
  cases word <;> cases rule <;> simp [ofKeyword, Rule.Starts]

theorem ofSymbol_opens_iff :
    ofSymbol char = .opens rule ↔ rule.Starts ⟨.symbol char, line⟩ next := by
  unfold ofSymbol
  split <;> cases rule <;> simp_all [Rule.Starts]

theorem ofName_opens_iff :
    ofName next = .opens rule ↔ rule.Starts ⟨.identifier name, line⟩ next := by
  cases next with
  | none => cases rule <;> simp [ofName, Rule.Starts]
  | some t =>
    rw [ofName]
    split
    · next h =>
      have hb : t.lexeme ≠ .symbol '[' := by
        simp only [Bool.or_eq_true, Token.isSymbol_iff] at h
        rcases h with h | h <;> simp [h]
      cases rule <;> simp_all [Rule.Starts, Token.isSymbol_iff]
    · split <;> cases rule <;> simp_all [Rule.Starts, Token.isSymbol_iff]

theorem opens_iff : Choice.of head next = .opens rule ↔ rule.Starts head next := by
  obtain ⟨lexeme, line⟩ := head
  cases lexeme with
  | keyword word => exact ofKeyword_opens_iff
  | symbol char => exact ofSymbol_opens_iff
  | identifier name => exact ofName_opens_iff
  | integer | string | comment => cases rule <;> simp [Choice.of, Rule.Starts]

theorem plain_of_terminal (h : Choice.of head next = .terminal) : Plain head next := by
  obtain ⟨lexeme, line⟩ := head
  cases lexeme with
  | keyword word =>
    apply Plain.keyword
    change ofKeyword word = _ at h
    revert h
    cases word <;> decide
  | symbol char =>
    refine .symbol fun hc => ?_
    change ofSymbol char = _ at h
    simp only [List.mem_cons, List.not_mem_nil, or_false] at hc
    rcases hc with rfl | rfl | rfl | rfl | rfl | rfl | rfl <;> cases h
  | identifier name =>
    refine .identifier fun t ht => ?_
    subst ht
    change ofName (some t) = _ at h
    simp only [ofName] at h
    split at h
    · cases h
    · next hc =>
      split at h
      · cases h
      · next hb =>
        simp only [Bool.or_eq_true, not_or] at hc
        exact ⟨mt terminal_iff.1 hc.1, mt terminal_iff.1 hc.2, mt terminal_iff.1 hb⟩
  | integer => exact .integer
  | string => exact .string
  | comment => exact .comment

theorem terminal_of_plain (h : Plain head next) : Choice.of head next = .terminal := by
  cases h with
  | @keyword word line _ h =>
    change ofKeyword word = _
    revert h
    cases word <;> decide
  | @symbol char line _ h =>
    change ofSymbol char = _
    unfold ofSymbol
    split <;> simp_all
  | identifier h =>
    cases next with
    | none => rfl
    | some t =>
      obtain ⟨hc, hd, hb⟩ := h t rfl
      simp only [terminal_iff, Expected.accepts] at hc hd hb
      simp [Choice.of, ofName, hc, hd, hb]
  | integer | string | comment => rfl

theorem of_closer (hc : ofSymbol char = .closer) (h : head.isSymbol char) :
    Choice.of head next = .closer := by
  rw [Token.isSymbol_iff] at h
  simp only [Choice.of, h, hc]

end Choice

end Jack
