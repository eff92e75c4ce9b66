import Jack.Proofs.Simulation
import Jack.Source

namespace Jack

mutual

/-- A tree without its comment leaves, at every depth. -/
def Tree.withoutComments : Tree → Tree
  | .leaf t => .leaf t
  | .node construct children => .node construct (forestWithoutComments children)

def forestWithoutComments : List Tree → List Tree
  | [] => []
  | tree :: trees =>
    if tree.isComment then forestWithoutComments trees
    else tree.withoutComments :: forestWithoutComments trees

end

namespace Revision

def uncommented : Revision where
  keep t := !t.isComment
  change := id
  keep_of_not_comment := by simp
  alike t := ⟨rfl, rfl, rfl⟩

theorem tokens_uncommented (ts : List Token) : uncommented.tokens ts = withoutComments ts :=
  List.map_id _

theorem error_uncommented (e : ParseError) : uncommented.error e = e := by
  cases e <;> rfl

theorem forest_uncommented : (trees : List Tree) →
    uncommented.forest trees = forestWithoutComments trees
  | [] => rfl
  | .leaf t :: trees => by
    rw [forest_cons, forest_uncommented trees, forestWithoutComments, tree]
    cases h : t.isComment <;> simp [uncommented, h, Tree.isComment, Tree.withoutComments]
  | .node construct children :: trees => by
    rw [forest_cons, forest_uncommented trees, tree_node, forest_uncommented children]
    rfl

theorem eq_withoutComments {first rest : Tree} (h : uncommented.tree first = [rest]) :
    rest = first.withoutComments := by
  have hf := forest_uncommented [first]
  rw [forest_cons, h, forestWithoutComments] at hf
  split at hf
  · cases hf
  · exact (List.cons.inj hf).1

end Revision

theorem parse_withoutComments (ts : List Token) :
    (parse (withoutComments ts)).result = (parse ts).result.map Tree.withoutComments := by
  have h := parse_revision .uncommented ts
  rw [Revision.tokens_uncommented] at h
  cases hr : (parse ts).result with
  | error e =>
    rw [hr] at h
    rw [h, Revision.error_uncommented]
    rfl
  | ok tree =>
    rw [hr] at h
    obtain ⟨tree', ht, hp⟩ := h
    rw [hp, Revision.eq_withoutComments ht]
    rfl

theorem Options.select_select (options : Options) (tokens : List Token) :
    options.select (options.select tokens) = options.select tokens := by
  rw [select, select]
  split
  · rfl
  · exact List.filter_filter.trans (by simp [withoutComments])

theorem parseText_result (options : Options) (text : String) :
    (parseText options text).result =
      match sourceLines text with
      | .error e => .error (.lexical e)
      | .ok records =>
        match tokenize records with
        | .error e => .error (.lexical e)
        | .ok tokens => (parse (options.select tokens)).result.mapError .grammatical := by
  rw [parseText, tokenizeText]
  cases sourceLines text with
  | error e => rfl
  | ok records =>
    simp only [tokenizeLines]
    cases tokenize records with
    | error e => rfl
    | ok tokens =>
      have hs := Options.select_select options tokens
      exact congrArg (fun ts => (parse ts).result.mapError SourceError.grammatical) hs

/-- Comments make no difference to parsing: without them a token list or a text gives the same
tree without its comments, or the same error. -/
theorem comments_transparent :
    (∀ ts, (parse (withoutComments ts)).result = (parse ts).result.map Tree.withoutComments) ∧
      ∀ text, (parseText ⟨false⟩ text).result =
        (parseText ⟨true⟩ text).result.map Tree.withoutComments := by
  constructor
  · exact parse_withoutComments
  · intro text
    rw [parseText_result, parseText_result]
    cases sourceLines text with
    | error e => rfl
    | ok records =>
      dsimp only
      cases tokenize records with
      | error e => rfl
      | ok tokens =>
        have h := parse_withoutComments tokens
        simp only [Options.select, Bool.false_eq_true, if_false, if_true, h]
        cases (parse tokens).result <;> rfl

end Jack
