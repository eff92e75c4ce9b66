import Jack.Grammar

namespace Jack

@[simp] theorem forestTokens_nil : forestTokens [] = [] := rfl

@[simp] theorem forestTokens_cons (tree : Tree) (trees : List Tree) :
    forestTokens (tree :: trees) = tree.tokens ++ forestTokens trees := rfl

@[simp] theorem Tree.tokens_leaf (t : Token) : (Tree.leaf t).tokens = [t] := rfl

@[simp] theorem Tree.tokens_node (construct : Construct) (children : List Tree) :
    (Tree.node construct children).tokens = forestTokens children := rfl

@[simp] theorem forestTokens_leaves (ts : List Token) : forestTokens (ts.map .leaf) = ts := by
  induction ts with
  | nil => rfl
  | cons t ts ih => simp only [List.map_cons, forestTokens_cons, Tree.tokens_leaf, ih,
      List.singleton_append]

@[simp] theorem Tree.tokens_asOperand (tree : Tree) : tree.asOperand.tokens = tree.tokens := by
  cases tree with
  | node => rfl
  | leaf t =>
    rw [Tree.asOperand]
    split <;> rfl

@[simp] theorem tokens_expressionOf (items : List Tree) :
    (expressionOf items).tokens = forestTokens items := by
  rw [expressionOf, Tree.tokens_node]
  induction items with
  | nil => rfl
  | cons item items ih => simp only [List.map_cons, forestTokens_cons, Tree.tokens_asOperand, ih]

theorem argumentsOf_cons_eq_ok (h : argumentsOf chunk ((comma, next) :: chunks) = .ok children) :
    hasContent chunk ∧ (chunks = [] → hasContent next) ∧
      ∃ rest, argumentsOf next chunks = .ok rest ∧
        children = expressionOf chunk :: .leaf comma :: rest := by
  rw [argumentsOf] at h
  split at h
  · cases h
  · next hc =>
    simp only [Bool.or_eq_true, Bool.not_eq_true', Bool.and_eq_true, List.isEmpty_iff, not_or,
      not_and, Bool.not_eq_false] at hc
    split at h
    · cases h
    · next rest hr =>
      cases h
      exact ⟨hc.1, hc.2, rest, hr, rfl⟩

theorem expressionList_eq (items : List Tree) :
    expressionList items =
      if (splitCommas items).2.isEmpty && !hasContent (splitCommas items).1 then
        .ok (.node .expressionList items)
      else
        match argumentsOf (splitCommas items).1 (splitCommas items).2 with
        | .error e => .error e
        | .ok children => .ok (.node .expressionList children) := rfl

theorem expressionList_eq_ok (h : expressionList items = .ok tree) :
    (splitCommas items).2 = [] ∧ ¬ hasContent (splitCommas items).1 ∧
        tree = .node .expressionList items ∨
      ((splitCommas items).2 = [] → hasContent (splitCommas items).1) ∧
        ∃ children, argumentsOf (splitCommas items).1 (splitCommas items).2 = .ok children ∧
          tree = .node .expressionList children := by
  rw [expressionList_eq] at h
  split at h
  · next hc =>
    cases h
    simp only [Bool.and_eq_true, List.isEmpty_iff, Bool.not_eq_true'] at hc
    exact .inl ⟨hc.1, by simp [hc.2], rfl⟩
  · next hc =>
    split at h
    · cases h
    · next children hr =>
      cases h
      exact .inr ⟨by simpa using hc, children, hr, rfl⟩

theorem Layout.arrange_arguments_eq_ok (h : Layout.arguments.arrange items = .ok arranged) :
    ∃ tree, expressionList items = .ok tree ∧ arranged = [tree] := by
  rw [arrange] at h
  split at h
  · cases h
  · next tree ht =>
    cases h
    exact ⟨tree, ht, rfl⟩

theorem tokens_argumentsOf (h : argumentsOf chunk chunks = .ok children) :
    forestTokens children = forestTokens (chunk ++ joinCommas chunks) := by
  induction chunks generalizing chunk children with
  | nil =>
    cases h
    simp
  | cons head chunks ih =>
    obtain ⟨comma, next⟩ := head
    obtain ⟨-, -, rest, hr, rfl⟩ := argumentsOf_cons_eq_ok h
    simp [ih hr]

theorem tokens_expressionList (h : expressionList items = .ok tree) :
    tree.tokens = forestTokens items := by
  obtain ⟨-, -, rfl⟩ | ⟨-, children, hr, rfl⟩ := expressionList_eq_ok h
  · rfl
  · rw [Tree.tokens_node, tokens_argumentsOf hr, splitCommas_join]

/-- Every layout keeps the leaves of a run in their order. -/
theorem Layout.tokens_arrange {layout : Layout} (h : layout.arrange items = .ok arranged) :
    forestTokens arranged = forestTokens items := by
  cases layout with
  | arguments =>
    obtain ⟨tree, hr, rfl⟩ := arrange_arguments_eq_ok h
    simp [tokens_expressionList hr]
  | value =>
    cases h
    split
    · simp
    · rfl
  | body =>
    cases h
    rw [forestTokens_append, forestTokens_cons, Tree.tokens_node, forestTokens_nil,
      List.append_nil, ← forestTokens_append, List.takeWhile_append_dropWhile]
  | spliced => cases h; rfl
  | grouped construct => cases h; simp
  | expression => cases h; simp

theorem Rule.tokens_build (rule : Rule) (head : Token) (rest : List Tree) :
    forestTokens (rule.build head rest) = head :: forestTokens rest := by
  cases rule <;> simp [Rule.build, Rule.construct?]

end Jack
