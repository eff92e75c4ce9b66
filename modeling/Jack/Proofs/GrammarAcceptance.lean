import Jack.Proofs.AbstractDerivation
import Jack.Proofs.Recognition
import Jack.Proofs.SessionConservation
import Jack.Proofs.Simulation

namespace Jack

def Token.unlined (t : Token) : Token := { t with line := 0 }

mutual

def Tree.unlined : Tree → Tree
  | .leaf t => .leaf t.unlined
  | .node construct children => .node construct (forestUnlined children)

def forestUnlined : List Tree → List Tree
  | [] => []
  | tree :: trees => tree.unlined :: forestUnlined trees

end

namespace Revision

def unlined : Revision where
  keep _ := true
  change := Token.unlined
  keep_of_not_comment _ := rfl
  alike _ := ⟨rfl, rfl, rfl⟩

theorem tokens_unlined (ts : List Token) : unlined.tokens ts = ts.map Token.unlined :=
  congrArg (List.map Token.unlined) (List.filter_eq_self.2 fun _ _ => rfl)

mutual

theorem tree_unlined : (tree : Tree) → unlined.tree tree = [tree.unlined]
  | .leaf _ => rfl
  | .node construct children => by
    rw [tree_node, forest_unlined children]
    rfl

theorem forest_unlined : (trees : List Tree) → unlined.forest trees = forestUnlined trees
  | [] => rfl
  | first :: trees => by
    rw [forest_cons, tree_unlined first, forest_unlined trees]
    rfl

end

end Revision

theorem parse_of_unlined (h : (parse (ts.map Token.unlined)).result = .ok unlined) :
    ∃ tree, (parse ts).result = .ok tree ∧ tree.unlined = unlined := by
  have hr := parse_revision .unlined ts
  rw [Revision.tokens_unlined] at hr
  cases hp : (parse ts).result with
  | error e =>
    rw [hp] at hr
    rw [h] at hr
    cases hr
  | ok tree =>
    rw [hp] at hr
    obtain ⟨tree', ht, hr⟩ := hr
    rw [Revision.tree_unlined] at ht
    rw [h] at hr
    cases hr
    exact ⟨tree, rfl, (List.cons.inj ht).1⟩

/-- The tokens of a class of the grammar, on any lines, parse to the tree of the class. -/
theorem class_accepted (class_ : Abstract.Class) (h : ts.map Token.unlined = class_.tokens) :
    ∃ tree, (parse ts).result = .ok tree ∧ tree.unlined = class_.tree ∧ tree.tokens = ts := by
  have hp : (parse class_.tokens).result = .ok class_.tree :=
    parse_eq_ok_iff.2 (Parser.Reads.of_derives class_.derives _)
  rw [← h] at hp
  obtain ⟨tree, ht, hu⟩ := parse_of_unlined hp
  exact ⟨tree, ht, hu, tokens_of_parse ht⟩

/-- A class with one function, which calls `Output.print(-x, a[1])`. -/
def mainClass : Abstract.Class where
  name := "Main"
  declarations := []
  subroutines := [{
    kind := .function, returnType := none, name := "main", parameters := [(.int, "x")]
    locals := []
    statements := [
      .do_ "Output" (some "print")
        [.term (.unary .negate (.name "x")), .term (.element "a" (.term (.integer 1)))],
      .return_ none] }]

def mainTokens : List Token := [
  ⟨.keyword .class_, 1⟩, ⟨.identifier "Main", 1⟩, ⟨.symbol '\x7b', 1⟩,
  ⟨.keyword .function, 2⟩, ⟨.keyword .void, 2⟩, ⟨.identifier "main", 2⟩, ⟨.symbol '(', 2⟩,
  ⟨.keyword .int, 2⟩, ⟨.identifier "x", 2⟩, ⟨.symbol ')', 2⟩, ⟨.symbol '\x7b', 2⟩,
  ⟨.keyword .do_, 3⟩, ⟨.identifier "Output", 3⟩, ⟨.symbol '.', 3⟩, ⟨.identifier "print", 3⟩,
  ⟨.symbol '(', 3⟩, ⟨.symbol '-', 3⟩, ⟨.identifier "x", 3⟩, ⟨.symbol ',', 3⟩,
  ⟨.identifier "a", 4⟩, ⟨.symbol '[', 4⟩, ⟨.integer 1, 4⟩, ⟨.symbol ']', 4⟩, ⟨.symbol ')', 4⟩,
  ⟨.symbol ';', 4⟩, ⟨.keyword .return_, 5⟩, ⟨.symbol ';', 5⟩, ⟨.symbol '\x7d', 6⟩,
  ⟨.symbol '\x7d', 7⟩]

theorem mainClass_accepted :
    mainTokens.map Token.unlined = mainClass.tokens ∧
      ∃ tree, (parse mainTokens).result = .ok tree ∧ tree.unlined = mainClass.tree ∧
        tree.tokens = mainTokens :=
  ⟨rfl, class_accepted mainClass rfl⟩

end Jack
