import Jack.Proofs.Simulation

namespace Jack

mutual

def Tree.mapTokens (change : Token → Token) : Tree → Tree
  | .leaf t => .leaf (change t)
  | .node construct children => .node construct (forestMapTokens change children)

def forestMapTokens (change : Token → Token) : List Tree → List Tree
  | [] => []
  | tree :: trees => tree.mapTokens change :: forestMapTokens change trees

end

namespace ParseError

/-- The variants of errors, where a missing argument is an unexpected comma. -/
inductive Variant where
  | unexpectedEnd | unexpected | noRule | mismatchedCloser | trailingInput
  deriving DecidableEq, Repr

def variant : ParseError → Variant
  | .unexpectedEnd _ => .unexpectedEnd
  | .unexpected _ _ | .missingArgument _ => .unexpected
  | .noRule _ => .noRule
  | .mismatchedCloser _ _ => .mismatchedCloser
  | .trailingInput _ => .trailingInput

def expectation? : ParseError → Option String
  | .unexpectedEnd expected | .unexpected expected _ => some expected.description
  | .missingArgument _ => some "an expression"
  | .mismatchedCloser closer _ => some (Expected.symbol closer).description
  | .noRule _ | .trailingInput _ => none

def subject? : ParseError → Option Token
  | .unexpectedEnd _ => none
  | .unexpected _ t | .missingArgument t | .noRule t | .mismatchedCloser _ t
  | .trailingInput t => some t

def line? (e : ParseError) : Option Nat := e.subject?.map Token.line

/-- The text for what was found, which describes a token unless an argument is missing. -/
def found? : ParseError → Option String
  | .missingArgument _ => some "','"
  | e => e.subject?.map Token.description

/-- The error about a changed token: it has the same variant and expects the same, and its line and
what it has found are those of the changed token. -/
structure Renamed (change : Token → Token) (e e' : ParseError) : Prop where
  variant : e'.variant = e.variant
  expectation : e'.expectation? = e.expectation?
  subject : e'.subject? = e.subject?.map change
  line : e'.line? = e.subject?.map fun t => (change t).line
  found : e'.found? =
    match e with
    | .missingArgument _ => some "','"
    | e => e.subject?.map fun t => (change t).description

end ParseError

namespace Revision

def ofChange (change : Token → Token) (h : ∀ t : Token, t.Alike (change t)) : Revision where
  keep _ := true
  change := change
  keep_of_not_comment _ := rfl
  alike := h

variable {change : Token → Token} (h : ∀ t : Token, t.Alike (change t))

theorem tokens_ofChange (ts : List Token) : (ofChange change h).tokens ts = ts.map change :=
  congrArg (List.map change) (List.filter_eq_self.2 fun _ _ => rfl)

mutual

theorem tree_ofChange : (tree : Tree) → (ofChange change h).tree tree = [tree.mapTokens change]
  | .leaf _ => rfl
  | .node construct children => by
    rw [tree_node, forest_ofChange children]
    rfl

theorem forest_ofChange :
    (trees : List Tree) → (ofChange change h).forest trees = forestMapTokens change trees
  | [] => rfl
  | first :: trees => by
    rw [forest_cons, tree_ofChange first, forest_ofChange trees]
    rfl

end

theorem error_ofChange (e : ParseError) : e.Renamed change ((ofChange change h).error e) := by
  cases e <;> exact ⟨rfl, rfl, rfl, rfl, rfl⟩

theorem remainder_tokens (r : Revision) (ts : List Token) :
    Parser.program.remainder (r.tokens ts) = r.tokens (Parser.program.remainder ts) := by
  have h := r.program_follows (c := ⟨ts, #[]⟩) (d := ⟨r.tokens ts, #[]⟩) rfl
  rw [Parser.remainder, Parser.remainder]
  generalize Parser.program ⟨ts, #[]⟩ = first at h ⊢
  generalize Parser.program ⟨r.tokens ts, #[]⟩ = second at h ⊢
  cases h with
  | ok _ hu =>
    dsimp only
    rw [hu.1, hu.2]
    rfl
  | error hu => exact hu

end Revision

theorem Session.start_position (ts : List Token) :
    (start ts).parseProgram.2.position = ts.length - (Parser.program.remainder ts).length :=
  (start ts).run_position Parser.program

/-- Parsing does not look at line numbers, nor at names, numbers and texts. When tokens are changed
but for what the grammar looks at, the parser stops at the same place, and it gives the tree of the
changed tokens, or the error about the changed token. -/
theorem parse_renamed {change : Token → Token} (h : ∀ t : Token, t.Alike (change t))
    (ts : List Token) :
    let original := (Session.start ts).parseProgram
    let renamed := (Session.start (ts.map change)).parseProgram
    renamed.2.position = original.2.position ∧
      (∀ tree, original.1.result = .ok tree →
        renamed.1.result = .ok (tree.mapTokens change)) ∧
      ∀ e, original.1.result = .error e →
        ∃ e', renamed.1.result = .error e' ∧ e.Renamed change e' := by
  intro original renamed
  have hr := parse_revision (.ofChange change h) ts
  rw [Revision.tokens_ofChange] at hr
  refine ⟨?_, fun tree ho => ?_, fun e ho => ?_⟩
  · have hu := Revision.remainder_tokens (.ofChange change h) ts
    rw [Revision.tokens_ofChange, Revision.tokens_ofChange] at hu
    rw [Session.start_position, Session.start_position, hu, List.length_map, List.length_map]
  · have hp : (parse ts).result = .ok tree := ho
    rw [hp] at hr
    obtain ⟨tree', ht, hr⟩ := hr
    rw [Revision.tree_ofChange] at ht
    rw [(List.cons.inj ht).1]
    exact hr
  · have hp : (parse ts).result = .error e := ho
    rw [hp] at hr
    exact ⟨_, hr, Revision.error_ofChange h e⟩

def blanked (t : Token) : Token :=
  let lexeme : Lexeme := match t.lexeme with
    | .identifier _ => .identifier ""
    | .integer _ => .integer 0
    | .string _ => .string ""
    | .comment _ => .comment ""
    | lexeme => lexeme
  ⟨lexeme, t.line + 7⟩

theorem alike_blanked (t : Token) : t.Alike (blanked t) := by
  obtain ⟨lexeme, line⟩ := t
  cases lexeme <;> exact ⟨rfl, rfl, rfl⟩

/-- A class in which a call lacks an argument behind a comma. -/
def lackingClass : List Token :=
  [⟨.keyword .class_, 1⟩, ⟨.identifier "Main", 1⟩, ⟨.symbol '\x7b', 1⟩, ⟨.identifier "f", 2⟩,
   ⟨.symbol '(', 2⟩, ⟨.integer 5, 2⟩, ⟨.symbol ',', 3⟩, ⟨.comment "// none", 3⟩, ⟨.symbol ')', 4⟩]

theorem lackingClass_blanked :
    (∀ t : Token, t.Alike (blanked t)) ∧
      (Session.start (lackingClass.map blanked)).parseProgram.2.position = 8 ∧
      ∃ e', (parse (lackingClass.map blanked)).result = .error e' ∧
        e'.expectation? = some "an expression" ∧ e'.found? = some "','" ∧ e'.line? = some 10 := by
  obtain ⟨hp, -, he⟩ := parse_renamed alike_blanked lackingClass
  obtain ⟨e', hr, hrenamed⟩ := he (.missingArgument ⟨.symbol ',', 3⟩) rfl
  exact ⟨alike_blanked, hp, e', hr, hrenamed.expectation, hrenamed.found, hrenamed.line⟩

end Jack
