import Jack.ParseError
import Jack.Tree

namespace Jack

/-- Whether a run of items holds anything besides comments. -/
def hasContent (items : List Tree) : Bool := items.any fun item => !item.isComment

/-- Inside an expression a bare name, keyword or constant is a term of its own. -/
def Tree.asOperand : Tree → Tree
  | .leaf token =>
    if token.symbol?.isNone && !token.isComment then .node .term [.leaf token] else .leaf token
  | tree => tree

def expressionOf (items : List Tree) : Tree := .node .expression (items.map Tree.asOperand)

/-- The items before the first comma, and each comma with the items up to the next. -/
def splitCommas : List Tree → List Tree × List (Token × List Tree)
  | [] => ([], [])
  | item :: items =>
    let (chunk, chunks) := splitCommas items
    match item with
    | .leaf token =>
      if token.isSymbol ',' then ([], (token, chunk) :: chunks) else (item :: chunk, chunks)
    | .node _ _ => (item :: chunk, chunks)

theorem splitCommas_comma {comma : Token} (h : comma.isSymbol ',') (items : List Tree) :
    splitCommas (.leaf comma :: items) =
      ([], (comma, (splitCommas items).1) :: (splitCommas items).2) := if_pos h

theorem splitCommas_other {item : Tree} (h : ¬ item.isSymbol ',') (items : List Tree) :
    splitCommas (item :: items) = (item :: (splitCommas items).1, (splitCommas items).2) := by
  cases item with
  | node => rfl
  | leaf t => exact if_neg h

theorem splitCommas_induction {motive : List Tree → Prop} (nil : motive [])
    (comma : ∀ comma items, (Tree.leaf comma).isSymbol ',' → motive items →
      motive (.leaf comma :: items))
    (other : ∀ item items, ¬ item.isSymbol ',' → motive items → motive (item :: items))
    (items : List Tree) : motive items := by
  induction items with
  | nil => exact nil
  | cons item items ih =>
    by_cases h : item.isSymbol ','
    · cases item with
      | node => cases h
      | leaf t => exact comma t items h ih
    · exact other item items h ih

theorem splitCommas_append (h : ∀ item ∈ chunk, ¬ item.isSymbol ',') (items : List Tree) :
    splitCommas (chunk ++ items) = (chunk ++ (splitCommas items).1, (splitCommas items).2) := by
  induction chunk with
  | nil => rfl
  | cons item chunk ih =>
    obtain ⟨hi, hc⟩ := List.forall_mem_cons.1 h
    rw [List.cons_append, splitCommas_other hi, ih hc, List.cons_append]

theorem splitCommas_of_no_comma (h : ∀ item ∈ chunk, ¬ item.isSymbol ',') :
    splitCommas chunk = (chunk, []) := by
  have hs := splitCommas_append h []
  rwa [splitCommas, List.append_nil] at hs

theorem splitCommas_commas (items : List Tree) :
    (∀ item ∈ (splitCommas items).1, ¬ item.isSymbol ',') ∧
      ∀ pair ∈ (splitCommas items).2,
        pair.1.isSymbol ',' ∧ ∀ item ∈ pair.2, ¬ item.isSymbol ',' := by
  induction items using splitCommas_induction with
  | nil => exact ⟨nofun, nofun⟩
  | comma comma items h ih =>
    rw [splitCommas_comma h]
    exact ⟨nofun, List.forall_mem_cons.2 ⟨⟨h, ih.1⟩, ih.2⟩⟩
  | other item items h ih =>
    rw [splitCommas_other h]
    exact ⟨List.forall_mem_cons.2 ⟨h, ih.1⟩, ih.2⟩

/-- The items that chunks and the commas before them were split from. -/
def joinCommas (chunks : List (Token × List Tree)) : List Tree :=
  chunks.flatMap fun (comma, chunk) => .leaf comma :: chunk

@[simp] theorem joinCommas_nil : joinCommas [] = [] := rfl

@[simp] theorem joinCommas_cons (comma : Token) (chunk : List Tree)
    (chunks : List (Token × List Tree)) :
    joinCommas ((comma, chunk) :: chunks) = .leaf comma :: chunk ++ joinCommas chunks := rfl

theorem splitCommas_join (items : List Tree) :
    (splitCommas items).1 ++ joinCommas (splitCommas items).2 = items := by
  induction items using splitCommas_induction with
  | nil => rfl
  | comma comma items h ih =>
    rw [splitCommas_comma h, joinCommas_cons, List.nil_append, List.cons_append, ih]
  | other item items h ih => rw [splitCommas_other h, List.cons_append, ih]

theorem mem_of_splitCommas (h : (comma, chunk) ∈ (splitCommas items).2) :
    .leaf comma ∈ items := by
  rw [← splitCommas_join items]
  apply List.mem_append_right
  exact List.mem_flatMap.2 ⟨_, h, List.mem_cons_self⟩

/-- The expressions of argument chunks with the commas between them. A chunk without content is
missing: the comma after it is to blame, or the comma before it when it is the last. -/
def argumentsOf (chunk : List Tree) : List (Token × List Tree) → Except ParseError (List Tree)
  | [] => .ok [expressionOf chunk]
  | (comma, next) :: chunks =>
    if !hasContent chunk || (chunks.isEmpty && !hasContent next) then
      .error (.missingArgument comma)
    else
      match argumentsOf next chunks with
      | .error e => .error e
      | .ok rest => .ok (expressionOf chunk :: .leaf comma :: rest)

def expressionList (items : List Tree) : Except ParseError Tree :=
  let (chunk, chunks) := splitCommas items
  if chunks.isEmpty && !hasContent chunk then .ok (.node .expressionList items)
  else
    match argumentsOf chunk chunks with
    | .error e => .error e
    | .ok children => .ok (.node .expressionList children)

def Tree.isLeading (tree : Tree) : Bool := tree.isConstruct .varDec || tree.isComment

inductive Layout where
  | spliced
  | grouped (construct : Construct)
  | expression
  | arguments
  | value
  | body
  deriving DecidableEq, Repr

/-- Arrange a run of items: as they are, under one node, as an expression, as an argument list, as
a value that is left out when only comments stand there, or as the declarations and statements of
a body. -/
def Layout.arrange : Layout → List Tree → Except ParseError (List Tree)
  | .spliced, items => .ok items
  | .grouped construct, items => .ok [.node construct items]
  | .expression, items => .ok [expressionOf items]
  | .arguments, items =>
    match expressionList items with
    | .error e => .error e
    | .ok tree => .ok [tree]
  | .value, items => .ok (if hasContent items then [expressionOf items] else items)
  | .body, items =>
    .ok (items.takeWhile Tree.isLeading ++ [.node .statements (items.dropWhile Tree.isLeading)])

end Jack
