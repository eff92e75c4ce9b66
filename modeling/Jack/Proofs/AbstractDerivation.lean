import Jack.Proofs.AbstractSyntax
import Jack.Proofs.ProductionDerivation

namespace Jack

theorem following_append (word words : List Token) (next : Option Token) :
    following (word ++ words) next = following word (following words next) := by
  rw [following_eq, significant?_append, following_eq, following_eq, following_eq, Option.or_assoc]

theorem Items.append_of_eq (h : Items word trees first) (hf : first = following words next)
    (hs : Items words more next) : Items (word ++ words) (trees ++ more) next := by
  match h with
  | .nil => exact hs
  | .cons hi hr =>
    rw [hf, ← following_append] at hi
    rw [List.append_assoc, List.append_assoc]
    exact .cons hi (hr.append_of_eq hf hs)

theorem Items.append (h : Items word trees (following words next)) (hs : Items words more next) :
    Items (word ++ words) (trees ++ more) next := h.append_of_eq rfl hs

theorem Items.single (h : Item word trees next) : Items word trees next := by
  have hi : Items (word ++ []) (trees ++ []) next := .cons h .nil
  rwa [List.append_nil, List.append_nil] at hi

theorem Items.plain (h : Plain t (following words next)) (hs : Items words more next) :
    Items (t :: words) (.leaf t :: more) next :=
  .cons (.plain h) hs

namespace Abstract

theorem ending_mark (h : char ∉ ['(', '.', '[']) : Ending (some (mark char)) := by
  rintro t ⟨⟩
  simp only [List.mem_cons, List.not_mem_nil, or_false, not_or] at h
  simpa [mark] using h

theorem BinaryOperator.ending (operator : BinaryOperator) :
    Ending (some (mark operator.char)) := by
  apply ending_mark
  cases operator <;> decide

/-- A word of items, none of them a comma, that become the children of an expression. -/
def Operands (word : List Token) (children : List Tree) (next : Option Token) : Prop :=
  ∃ items, Items word items next ∧ List.Forall₂ Operand items children ∧ NoComma items ∧
    HasContent items

theorem Operands.append (h : Operands word children (following words next))
    (hs : Operands words more next) : Operands (word ++ words) (children ++ more) next := by
  obtain ⟨items, hi, ho, hn, hc⟩ := h
  obtain ⟨rest, hi', ho', hn', -⟩ := hs
  refine ⟨items ++ rest, hi.append hi', List.rel_append ho ho', ?_, ?_⟩
  · intro t hm
    rcases List.mem_append.1 hm with hm | hm
    · exact hn t hm
    · exact hn' t hm
  · obtain ⟨item, hm, hi⟩ := hc
    exact ⟨item, List.mem_append_left _ hm, hi⟩

theorem Operands.node (h : Item word [.node construct children] next) :
    Operands word [.node construct children] next :=
  ⟨_, .single h, .cons .node .nil, by simp [NoComma], _, List.mem_singleton_self _, nofun⟩

theorem Operands.leaf (h : Plain t next) (ho : Operand (.leaf t) child)
    (hc : ¬ Terminal (.symbol ',') t) (hn : ¬ Comment t) : Operands [t] [child] next := by
  refine ⟨_, .single (.plain h), .cons ho .nil, ?_, _, List.mem_singleton_self _, ?_⟩
  · intro other hm
    cases List.mem_singleton.1 hm
    exact hc
  · rintro ⟨hr⟩
    exact hn hr

theorem Operands.term (h : Plain t next) (hs : ∀ char, ¬ Terminal (.symbol char) t)
    (hc : ¬ Comment t) : Operands [t] [.node .term [.leaf t]] next :=
  .leaf h (.term hs hc) (hs ',') hc

theorem Operands.bare (h : Plain (mark char) next) (hc : char ≠ ',') :
    Operands [mark char] [.leaf (mark char)] next :=
  .leaf h (.symbol .symbol) (fun ht => hc (Lexeme.symbol.inj (terminal_symbol_iff.1 ht))) nofun

theorem BinaryOperator.operands (operator : BinaryOperator) (next : Option Token) :
    Operands [mark operator.char] [.leaf (mark operator.char)] next := by
  apply Operands.bare
  · apply Plain.symbol
    cases operator <;> decide
  · cases operator <;> decide

theorem UnaryOperator.operands (operator : UnaryOperator) (next : Option Token) :
    Operands [mark operator.char] [.leaf (mark operator.char)] next := by
  apply Operands.bare
  · apply Plain.symbol
    cases operator <;> decide
  · cases operator <;> decide

theorem terminal_mark (char : Char) : Terminal (.symbol char) (mark char) := .symbol

theorem terminal_reserved (keyword : Keyword) :
    Terminal (.keyword keyword) (reserved keyword) := .keyword

theorem spaced_mark (char : Char) : Spaced (.symbol char) [mark char] :=
  .token (terminal_mark char)

theorem spaced_reserved (keyword : Keyword) : Spaced (.keyword keyword) [reserved keyword] :=
  .token (terminal_reserved keyword)

theorem spaced_identifier (name : String) : Spaced .identifier [identifier name] :=
  .token .identifier

theorem Operands.expression (h : Operands word children (some (mark closer))) :
    Run closer .expression (word ++ [mark closer])
      [.node .expression children, .leaf (mark closer)] := by
  obtain ⟨items, hi, ho, -, -⟩ := h
  exact .intro hi (terminal_mark closer) (.expression (.intro ho))

theorem Operands.value (h : Operands word children (some (mark closer))) :
    Run closer .value (word ++ [mark closer])
      [.node .expression children, .leaf (mark closer)] := by
  obtain ⟨items, hi, ho, -, hc⟩ := h
  exact .intro hi (terminal_mark closer) (.value hc (.intro ho))

theorem plain_identifier (name : String) (h : Ending next) : Plain (identifier name) next :=
  .identifier h

theorem qualifier (member : Option String) : Qualifier (memberTokens member) := by
  cases member with
  | none => exact .absent
  | some name => exact .present (spaced_mark '.') (spaced_identifier name)

def ArgumentItems (arguments : List Expression) : Prop :=
  ∃ items, Items (argumentTokens arguments) items (some (mark ')')) ∧
    (arguments = [] ∧ items = [] ∨ Arguments items (argumentTrees arguments))

theorem ArgumentItems.run (h : ArgumentItems arguments) :
    Run ')' .arguments (argumentTokens arguments ++ [mark ')'])
      [.node .expressionList (argumentTrees arguments), .leaf (mark ')')] := by
  obtain ⟨items, hi, ⟨rfl, rfl⟩ | ha⟩ := h
  · exact .intro hi .symbol (.noArguments (by simp [HasContent]))
  · exact .intro hi .symbol (.arguments ha)

theorem Operands.lastArgument (h : Operands last.tokens last.trees (some (mark ')'))) :
    ArgumentItems [last] := by
  obtain ⟨items, hi, ho, hn, hc⟩ := h
  exact ⟨items, hi, .inr (.last hn hc (.intro ho))⟩

theorem Operands.argument (h : Operands first.tokens first.trees (some (mark ',')))
    (hs : ArgumentItems (second :: arguments)) :
    ArgumentItems (first :: second :: arguments) := by
  obtain ⟨items, hi, ho, hn, hc⟩ := h
  obtain ⟨rest, hr, ⟨he, -⟩ | ha⟩ := hs
  · cases he
  · refine ⟨items ++ .leaf (mark ',') :: rest, ?_, .inr (.cons hn hc (.intro ho) .symbol ha)⟩
    exact hi.append (.plain (.symbol (by decide)) hr)

mutual

theorem Term.operands (hn : Ending next) : (term : Term) → Operands term.tokens term.trees next
  | .integer value => .term .integer nofun nofun
  | .string body => .term .string nofun nofun
  | .constant constant => by
    apply Operands.term (.keyword _) nofun nofun
    cases constant <;> decide
  | .name name => .term (.identifier hn) nofun nofun
  | .element name index => by
    have he : Ending (some (mark ']')) := ending_mark (by decide)
    have hi := (index.operands he).expression
    exact .node (.element .identifier (spaced_mark '[') hi)
  | .call name member arguments => by
    have ha := (argumentItems arguments).run
    exact .node (.call .identifier (qualifier member) (spaced_mark '(') ha)
  | .parenthesized inner => by
    have he : Ending (some (mark ')')) := ending_mark (by decide)
    have hi := (inner.operands he).expression
    exact .node (.parenthesized .symbol hi)
  | .unary operator operand => (operator.operands _).append (operand.operands hn)

theorem Expression.operands (hn : Ending next) :
    (expression : Expression) → Operands expression.tokens expression.trees next
  | .term term => term.operands hn
  | .binary first operator rest =>
    have hr := (operator.operands _).append (rest.operands hn)
    (first.operands operator.ending).append hr

theorem argumentItems : (arguments : List Expression) → ArgumentItems arguments
  | [] => ⟨[], .nil, .inl ⟨rfl, rfl⟩⟩
  | [last] => (last.operands (ending_mark (by decide))).lastArgument
  | first :: second :: arguments =>
    (first.operands (ending_mark (by decide))).argument (argumentItems (second :: arguments))

end

theorem Expression.run (expression : Expression) (closer : Char) (hc : closer ∉ ['(', '.', '[']) :
    Run closer .expression (expression.tokens ++ [mark closer])
      [expression.tree, .leaf (mark closer)] :=
  (expression.operands (ending_mark hc)).expression

theorem value_run (value : Option Expression) :
    Run ';' .value (valueTokens value ++ [mark ';']) (valueTrees value ++ [.leaf (mark ';')]) := by
  cases value with
  | none => exact .intro .nil .symbol (.noValue (by simp [HasContent]))
  | some value => exact (value.operands (ending_mark (by decide))).value

theorem Statement.noElse (statement : Statement) (next : Option Token) :
    NoElse (following statement.tokens next) := by
  cases statement <;>
    · rintro t ⟨⟩
      nofun

theorem noElse_statements (statements : List Statement) (h : NoElse next) :
    NoElse (following (statementTokens statements) next) := by
  cases statements with
  | nil => exact h
  | cons statement statements =>
    rw [statementTokens, following_append]
    exact statement.noElse _

theorem noElse_mark (char : Char) : NoElse (some (mark char)) := by
  rintro t ⟨⟩
  nofun

mutual

theorem Statement.item (hn : NoElse next) :
    (statement : Statement) → Item statement.tokens [statement.tree] next
  | .assign name none value => by
    have hv := value.run ';' (by decide)
    exact .let_ .keyword (spaced_identifier name) (spaced_mark '=') hv
  | .assign name (some index) value => by
    have hi := index.run ']' (by decide)
    have hv := value.run ';' (by decide)
    have h : Item _ _ next := .letElement (terminal_reserved .let_) (spaced_identifier name)
      (spaced_mark '[') hi (spaced_mark '=') hv
    simpa [Statement.tokens, Statement.tree, indexTokens, indexTrees] using h
  | .if_ condition body => by
    have hc := condition.run ')' (by decide)
    have h := Item.if_ (terminal_reserved .if_) (spaced_mark '(') hc (spaced_mark '\x7b')
      (block body) hn
    simpa [Statement.tokens, Statement.tree, blockTrees] using h
  | .ifElse condition body otherwise => by
    have hc := condition.run ')' (by decide)
    have h : Item _ _ next := .ifElse (terminal_reserved .if_) (spaced_mark '(') hc
      (spaced_mark '\x7b') (block body) (spaced_reserved .else_) (spaced_mark '\x7b')
      (block otherwise)
    simpa [Statement.tokens, Statement.tree, blockTrees] using h
  | .while_ condition body => by
    have hc := condition.run ')' (by decide)
    have h : Item _ _ next := .while_ (terminal_reserved .while_) (spaced_mark '(') hc
      (spaced_mark '\x7b') (block body)
    simpa [Statement.tokens, Statement.tree, blockTrees] using h
  | .do_ name member arguments => by
    have ha := (argumentItems arguments).run
    have h : Item _ _ next := .do_ (terminal_reserved .do_) (spaced_identifier name)
      (qualifier member) (spaced_mark '(') ha (spaced_mark ';')
    simpa [Statement.tokens, Statement.tree] using h
  | .return_ value => .return_ .keyword (value_run value)

theorem block (statements : List Statement) :
    Run '\x7d' (.grouped .statements) (statementTokens statements ++ [mark '\x7d'])
      [.node .statements (statementTrees statements), .leaf (mark '\x7d')] :=
  .intro (statementItems (noElse_mark '\x7d') statements) .symbol .grouped

theorem statementItems (hn : NoElse next) : (statements : List Statement) →
    Items (statementTokens statements) (statementTrees statements) next
  | [] => .nil
  | statement :: statements =>
    .cons (statement.item (noElse_statements statements hn)) (statementItems hn statements)

end

theorem VariableType.plain (type : VariableType) (name : String) :
    Plain type.token (some (identifier name)) := by
  cases type with
  | class_ name =>
    apply Plain.identifier
    rintro t ⟨⟩
    exact ⟨nofun, nofun, nofun⟩
  | int | char | boolean => exact .keyword (by decide)

theorem ending_moreNames (names : List String) :
    Ending (following (moreNames names) (some (mark ';'))) := by
  cases names with
  | nil => exact ending_mark (by decide)
  | cons name names =>
    have hc : Ending (some (mark ',')) := ending_mark (by decide)
    exact hc

theorem moreNames_items (names : List String) :
    Items (moreNames names) (leaves (moreNames names)) (some (mark ';')) := by
  induction names with
  | nil => exact .nil
  | cons name names ih =>
    exact .plain (.symbol (by decide)) (.plain (.identifier (ending_moreNames names)) ih)

theorem Declaration.run (declaration : Declaration) :
    Run ';' .spliced declaration.tokens (leaves declaration.tokens) := by
  have hn := moreNames_items declaration.rest
  have hf := Items.plain (plain_identifier declaration.first (ending_moreNames _)) hn
  have ht := Items.plain (declaration.type.plain declaration.first) hf
  have hr := Run.intro ht (terminal_mark ';') .spliced
  simpa [Declaration.tokens] using hr

theorem Declaration.local_item (declaration : Declaration) (next : Option Token) :
    Item (reserved .var :: declaration.tokens) [declaration.tree .varDec .var] next :=
  .varDec .keyword declaration.run

theorem Declaration.class_item (declaration : Storage × Declaration) (next : Option Token) :
    Item (reserved declaration.1.keyword :: declaration.2.tokens)
      [declaration.2.tree .classVarDec declaration.1.keyword] next := by
  obtain ⟨storage, declaration⟩ := declaration
  apply Item.classVarDec _ declaration.run
  cases storage with
  | static => exact .inl .keyword
  | field => exact .inr .keyword

theorem parameter_items : (parameters : List (VariableType × String)) →
    Items (parameterTokens parameters) (leaves (parameterTokens parameters)) (some (mark ')'))
  | [] => .nil
  | [(type, name)] =>
    .plain (type.plain name) (.plain (.identifier (ending_mark (by decide))) .nil)
  | (type, name) :: second :: parameters => by
    have hr := parameter_items (second :: parameters)
    have hc : Ending (some (mark ',')) := ending_mark (by decide)
    exact .plain (type.plain name) (.plain (.identifier hc) (.plain (.symbol (by decide)) hr))

theorem parameters_run (parameters : List (VariableType × String)) :
    Run ')' (.grouped .parameterList) (parameterTokens parameters ++ [mark ')'])
      [.node .parameterList (leaves (parameterTokens parameters)), .leaf (mark ')')] :=
  .intro (parameter_items parameters) .symbol .grouped

/-- Items one after the other, each of which may stand before any token. -/
theorem Items.flatMap {tokens : α → List Token} {tree : α → Tree}
    (h : ∀ a next, Item (tokens a) [tree a] next) (as : List α) (next : Option Token) :
    Items (as.flatMap tokens) (as.map tree) next := by
  induction as with
  | nil => exact .nil
  | cons a as ih => exact .cons (h a _) ih

theorem Statement.not_leading (statement : Statement) : ¬ Leading statement.tree := by
  cases statement <;> nofun

theorem Subroutine.body_run (subroutine : Subroutine) :
    Run '\x7d' .body (subroutine.bodyTokens ++ [mark '\x7d'])
      (subroutine.bodyTrees ++ [.leaf (mark '\x7d')]) := by
  have hl := Items.flatMap Declaration.local_item subroutine.locals
  have hi := (hl _).append (statementItems (noElse_mark '\x7d') subroutine.statements)
  apply Run.intro hi (terminal_mark '\x7d')
  apply Arranged.body
  · intro item hm
    obtain ⟨declaration, -, rfl⟩ := List.mem_map.1 hm
    exact .varDec
  · intro item hh
    cases hs : subroutine.statements with
    | nil =>
      rw [hs] at hh
      cases hh
    | cons statement statements =>
      rw [hs] at hh
      cases hh
      exact statement.not_leading

theorem SubroutineKind.terminal (kind : SubroutineKind) :
    Terminal (.keyword .constructor) (reserved kind.keyword) ∨
      Terminal (.keyword .function) (reserved kind.keyword) ∨
      Terminal (.keyword .method) (reserved kind.keyword) := by
  cases kind with
  | constructor => exact .inl .keyword
  | function => exact .inr (.inl .keyword)
  | method => exact .inr (.inr .keyword)

theorem spaced_returnToken (type : Option VariableType) :
    Spaced .returnType [returnToken type] := by
  apply Spaced.token
  rcases type with _ | _ | _ | _ | _
  · exact .builtInType
  · exact .builtInType
  · exact .builtInType
  · exact .builtInType
  · exact .className

theorem Subroutine.item (subroutine : Subroutine) (next : Option Token) :
    Item subroutine.tokens [subroutine.tree] next := by
  have hp := parameters_run subroutine.parameters
  have h : Item _ _ next := .subroutineDec subroutine.kind.terminal
    (spaced_returnToken subroutine.returnType) (spaced_identifier subroutine.name)
    (spaced_mark '(') hp gap_nil (terminal_mark '\x7b') subroutine.body_run
  simpa [Subroutine.tokens, Subroutine.tree] using h

/-- The tokens of every class of the grammar derive its tree. -/
theorem Class.derives (class_ : Class) : Derives class_.tree class_.tokens := by
  have hd := Items.flatMap Declaration.class_item class_.declarations
  have hs := Items.flatMap Subroutine.item class_.subroutines
  have hr := Run.intro ((hd _).append (hs _)) (terminal_mark '\x7d') .spliced
  have h := Derives.intro gap_nil (.class_ (terminal_reserved .class_)
    (spaced_identifier class_.name) (spaced_mark '\x7b') hr) gap_nil
  simpa [Class.tokens, Class.tree] using h

end Abstract

end Jack
