import Jack.Proofs.Leaves

namespace Jack

/-- Tokens of one lexical class, with the same word or character if that is part of the syntax. -/
structure Token.Alike (t u : Token) : Prop where
  category : u.category = t.category
  keyword : u.keyword? = t.keyword?
  symbol : u.symbol? = t.symbol?

section Alike

variable {t u : Token}

theorem Token.Alike.isSymbol (h : t.Alike u) (char : Char) : u.isSymbol char = t.isSymbol char := by
  rw [Token.isSymbol, Token.isSymbol, h.symbol]

theorem Token.Alike.isKeyword (h : t.Alike u) (word : Keyword) :
    u.isKeyword word = t.isKeyword word := by
  rw [Token.isKeyword, Token.isKeyword, h.keyword]

theorem Token.isIdentifier_eq (t : Token) :
    t.isIdentifier = decide (t.category = .identifier) := by
  obtain ⟨lexeme, line⟩ := t
  cases lexeme <;> rfl

theorem Token.isComment_eq (t : Token) : t.isComment = decide (t.category = .comment) := by
  obtain ⟨lexeme, line⟩ := t
  cases lexeme <;> rfl

theorem Token.Alike.isIdentifier (h : t.Alike u) : u.isIdentifier = t.isIdentifier := by
  rw [Token.isIdentifier_eq, Token.isIdentifier_eq, h.category]

theorem Token.Alike.isComment (h : t.Alike u) : u.isComment = t.isComment := by
  rw [Token.isComment_eq, Token.isComment_eq, h.category]

theorem Token.Alike.accepts (h : t.Alike u) (expected : Expected) :
    expected.accepts u = expected.accepts t := by
  cases expected with
  | symbol char => exact h.isSymbol char
  | keyword word => exact h.isKeyword word
  | identifier => exact h.isIdentifier
  | returnType => simp only [Expected.accepts, h.keyword, h.isIdentifier]

end Alike

/-- A way to leave out comments of a token list and to change the parts of its tokens that no rule
of the grammar looks at. -/
structure Revision where
  keep : Token → Bool
  change : Token → Token
  keep_of_not_comment : ¬ t.isComment → keep t
  alike (t : Token) : t.Alike (change t)

namespace Revision

variable (r : Revision)

def tokens (ts : List Token) : List Token := (ts.filter r.keep).map r.change

@[simp] theorem tokens_nil : r.tokens [] = [] := rfl

theorem tokens_cons_of_keep (h : r.keep t) (ts : List Token) :
    r.tokens (t :: ts) = r.change t :: r.tokens ts := by
  simp only [tokens, List.filter_cons_of_pos h, List.map_cons]

theorem tokens_cons_of_drop (h : ¬ r.keep t) (ts : List Token) :
    r.tokens (t :: ts) = r.tokens ts := by
  simp only [tokens, List.filter_cons_of_neg h]

theorem isComment_of_drop (h : ¬ r.keep t) : t.isComment := by
  by_cases hc : t.isComment
  · exact hc
  · exact absurd (r.keep_of_not_comment hc) h

mutual

/-- What is left of a tree: one tree, or nothing of a leaf that is left out. -/
def tree : Tree → List Tree
  | .leaf t => if r.keep t then [.leaf (r.change t)] else []
  | .node construct children => [.node construct (forest children)]

def forest : List Tree → List Tree
  | [] => []
  | first :: trees => tree first ++ forest trees

end

@[simp] theorem forest_nil : r.forest [] = [] := rfl

@[simp] theorem forest_cons (first : Tree) (trees : List Tree) :
    r.forest (first :: trees) = r.tree first ++ r.forest trees := rfl

@[simp] theorem tree_node (construct : Construct) (children : List Tree) :
    r.tree (.node construct children) = [.node construct (r.forest children)] := rfl

theorem tree_leaf_of_keep (h : r.keep t) : r.tree (.leaf t) = [.leaf (r.change t)] := if_pos h

theorem tree_leaf_of_drop (h : ¬ r.keep t) : r.tree (.leaf t) = [] := if_neg h

@[simp] theorem forest_append (first second : List Tree) :
    r.forest (first ++ second) = r.forest first ++ r.forest second := by
  induction first with
  | nil => rfl
  | cons tree trees ih => simp only [List.cons_append, forest_cons, ih, List.append_assoc]

theorem forest_leaves (ts : List Token) :
    r.forest (ts.map .leaf) = (r.tokens ts).map .leaf := by
  induction ts with
  | nil => rfl
  | cons t ts ih =>
    rw [List.map_cons, forest_cons, ih]
    by_cases h : r.keep t
    · rw [r.tree_leaf_of_keep h, r.tokens_cons_of_keep h]
      rfl
    · rw [r.tree_leaf_of_drop h, r.tokens_cons_of_drop h]
      rfl

def error : ParseError → ParseError
  | .unexpectedEnd expected => .unexpectedEnd expected
  | .unexpected expected found => .unexpected expected (r.change found)
  | .missingArgument comma => .missingArgument (r.change comma)
  | .noRule found => .noRule (r.change found)
  | .mismatchedCloser closer found => .mismatchedCloser closer (r.change found)
  | .trailingInput found => .trailingInput (r.change found)

def outcome : Except ParseError (List Tree) → Except ParseError (List Tree)
  | .ok trees => .ok (r.forest trees)
  | .error e => .error (r.error e)

section Arranging

theorem hasContent_cons (item : Tree) (items : List Tree) :
    hasContent (item :: items) = (!item.isComment || hasContent items) := rfl

theorem hasContent_forest (items : List Tree) : hasContent (r.forest items) = hasContent items := by
  induction items with
  | nil => rfl
  | cons item items ih =>
    cases item with
    | node construct children => rfl
    | leaf t =>
      rw [forest_cons, hasContent_cons]
      by_cases h : r.keep t
      · rw [r.tree_leaf_of_keep h, List.singleton_append, hasContent_cons, ih]
        simp only [Tree.isComment, (r.alike t).isComment]
      · rw [r.tree_leaf_of_drop h, List.nil_append, ih]
        simp only [Tree.isComment, r.isComment_of_drop h, Bool.not_true, Bool.false_or]

theorem asOperand_leaf (t : Token) :
    (Tree.leaf t).asOperand =
      if t.symbol?.isNone && !t.isComment then .node .term [.leaf t] else .leaf t := rfl

theorem tree_asOperand (item : Tree) :
    r.tree item.asOperand = (r.tree item).map Tree.asOperand := by
  cases item with
  | node => rfl
  | leaf t =>
    rw [asOperand_leaf]
    by_cases h : r.keep t
    · rw [r.tree_leaf_of_keep h, List.map_singleton, asOperand_leaf, (r.alike t).symbol,
        (r.alike t).isComment]
      split
      · simp only [tree_node, forest_cons, r.tree_leaf_of_keep h, forest_nil, List.append_nil]
      · rw [r.tree_leaf_of_keep h]
    · simp only [r.isComment_of_drop h, Bool.not_true, Bool.and_false, Bool.false_eq_true, if_false,
        r.tree_leaf_of_drop h, List.map_nil]

theorem tree_expressionOf (items : List Tree) :
    r.tree (expressionOf items) = [expressionOf (r.forest items)] := by
  rw [expressionOf, tree_node, expressionOf]
  congr 2
  induction items with
  | nil => rfl
  | cons item items ih => rw [List.map_cons, forest_cons, ih, tree_asOperand, forest_cons,
      List.map_append]

def pieces (chunks : List (Token × List Tree)) : List (Token × List Tree) :=
  chunks.map fun (comma, chunk) => (r.change comma, r.forest chunk)

@[simp] theorem pieces_cons (comma : Token) (chunk : List Tree)
    (chunks : List (Token × List Tree)) :
    r.pieces ((comma, chunk) :: chunks) = (r.change comma, r.forest chunk) :: r.pieces chunks := rfl

theorem isEmpty_pieces (chunks : List (Token × List Tree)) :
    (r.pieces chunks).isEmpty = chunks.isEmpty := List.isEmpty_map

theorem not_isSymbol_tree (h : ¬ item.isSymbol char) :
    ∀ other ∈ r.tree item, ¬ other.isSymbol char := by
  cases item with
  | node construct children => exact List.forall_mem_singleton.2 h
  | leaf t =>
    by_cases hk : r.keep t
    · rw [r.tree_leaf_of_keep hk]
      refine List.forall_mem_singleton.2 ?_
      rwa [Tree.isSymbol, (r.alike t).isSymbol]
    · rw [r.tree_leaf_of_drop hk]
      exact nofun

theorem splitCommas_forest (items : List Tree) :
    splitCommas (r.forest items) =
      (r.forest (splitCommas items).1, r.pieces (splitCommas items).2) := by
  induction items using splitCommas_induction with
  | nil => rfl
  | comma comma items h ih =>
    have hk : r.keep comma := r.keep_of_not_comment (Token.not_isComment_of_isSymbol h)
    have hc : (r.change comma).isSymbol ',' := by
      rw [(r.alike comma).isSymbol]
      exact h
    rw [forest_cons, r.tree_leaf_of_keep hk, List.singleton_append, splitCommas_comma hc, ih,
      splitCommas_comma h]
    rfl
  | other item items h ih =>
    rw [forest_cons, splitCommas_append (r.not_isSymbol_tree h), ih, splitCommas_other h,
      forest_cons]

theorem argumentsOf_pieces (chunk : List Tree) (hc : ∀ p ∈ chunks, p.1.isSymbol ',') :
    argumentsOf (r.forest chunk) (r.pieces chunks) = r.outcome (argumentsOf chunk chunks) := by
  induction chunks generalizing chunk with
  | nil =>
    have he : r.forest [expressionOf chunk] = [expressionOf (r.forest chunk)] := by
      rw [forest_cons, tree_expressionOf, forest_nil, List.append_nil]
    exact congrArg Except.ok he.symm
  | cons head rest ih =>
    obtain ⟨comma, next⟩ := head
    rw [List.forall_mem_cons] at hc
    have hk : r.keep comma := r.keep_of_not_comment (Token.not_isComment_of_isSymbol hc.1)
    rw [pieces_cons, argumentsOf, argumentsOf, isEmpty_pieces, hasContent_forest,
      hasContent_forest, ih next hc.2]
    split
    · rfl
    · cases argumentsOf next rest with
      | error e => rfl
      | ok children =>
        simp only [outcome, forest_cons, tree_expressionOf, r.tree_leaf_of_keep hk,
          List.singleton_append]

/-- Leaving out comments, which may stand anywhere in an argument list, commutes with forming the
list. -/
theorem arrange_arguments (items : List Tree) :
    Layout.arguments.arrange (r.forest items) = r.outcome (Layout.arguments.arrange items) := by
  have hc : ∀ p ∈ (splitCommas items).2, p.1.isSymbol ',' :=
    fun p hp => ((splitCommas_commas items).2 p hp).1
  have ha := r.argumentsOf_pieces (splitCommas items).1 hc
  simp only [Layout.arrange, expressionList_eq, splitCommas_forest, isEmpty_pieces,
    hasContent_forest, ha]
  by_cases he : (splitCommas items).2.isEmpty && !hasContent (splitCommas items).1
  · simp only [if_pos he]
    rfl
  · simp only [if_neg he]
    cases argumentsOf (splitCommas items).1 (splitCommas items).2 <;> rfl

theorem isLeading_leaf (t : Token) : (Tree.leaf t).isLeading = t.isComment := rfl

theorem leading_forest (items : List Tree) :
    (r.forest items).takeWhile Tree.isLeading = r.forest (items.takeWhile Tree.isLeading) ∧
      (r.forest items).dropWhile Tree.isLeading = r.forest (items.dropWhile Tree.isLeading) := by
  induction items with
  | nil => exact ⟨rfl, rfl⟩
  | cons item items ih =>
    cases item with
    | node construct children =>
      have hn : (Tree.node construct (r.forest children)).isLeading =
          (Tree.node construct children).isLeading := rfl
      rw [forest_cons, tree_node, List.singleton_append, List.takeWhile_cons, List.takeWhile_cons,
        List.dropWhile_cons, List.dropWhile_cons, hn]
      split
      · exact ⟨by rw [ih.1]; rfl, ih.2⟩
      · exact ⟨rfl, rfl⟩
    | leaf t =>
      rw [forest_cons, List.takeWhile_cons, List.dropWhile_cons, isLeading_leaf]
      by_cases h : r.keep t
      · rw [r.tree_leaf_of_keep h, List.singleton_append, List.takeWhile_cons, List.dropWhile_cons,
          isLeading_leaf, (r.alike t).isComment]
        split
        · rw [forest_cons, r.tree_leaf_of_keep h, ih.1, ih.2]
          exact ⟨rfl, rfl⟩
        · rw [forest_cons, r.tree_leaf_of_keep h]
          exact ⟨rfl, rfl⟩
      · rw [r.tree_leaf_of_drop h, if_pos (r.isComment_of_drop h),
          if_pos (r.isComment_of_drop h), forest_cons, r.tree_leaf_of_drop h]
        exact ih

theorem arrange_forest (layout : Layout) (items : List Tree) :
    layout.arrange (r.forest items) = r.outcome (layout.arrange items) := by
  cases layout with
  | spliced => rfl
  | grouped construct => rfl
  | expression =>
    simp only [Layout.arrange, outcome, forest_cons, tree_expressionOf, forest_nil,
      List.append_nil]
  | arguments => exact r.arrange_arguments items
  | value =>
    simp only [Layout.arrange, outcome, hasContent_forest]
    split
    · simp only [forest_cons, tree_expressionOf, forest_nil, List.append_nil]
    · rfl
  | body =>
    obtain ⟨ht, hd⟩ := r.leading_forest items
    simp only [Layout.arrange, outcome, ht, hd, forest_append, forest_cons, tree_node, forest_nil,
      List.append_nil]

end Arranging

theorem forest_build (h : r.keep head) (rule : Rule) (rest : List Tree) :
    r.forest (rule.build head rest) = rule.build (r.change head) (r.forest rest) := by
  rw [Rule.build, Rule.build]
  cases rule.construct? with
  | none => simp only [forest_cons, r.tree_leaf_of_keep h, List.singleton_append]
  | some construct =>
    simp only [forest_cons, tree_node, r.tree_leaf_of_keep h, List.singleton_append, forest_nil]

end Revision

end Jack
