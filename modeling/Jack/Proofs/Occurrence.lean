import Jack.Proofs.Nesting
import Jack.Proofs.Recognition

namespace Jack

/-- A tree stands in one of several trees, with the leaves before it and after it. -/
inductive OccursIn (inner : Tree) : List Token → List Token → List Tree → Prop where
  | intro (h : Occurs inner before after tree) :
      OccursIn inner (forestTokens left ++ before) (after ++ forestTokens right)
        (left ++ tree :: right)

variable {inner : Tree}

theorem Occurs.tokens (h : Occurs inner before after tree) :
    tree.tokens = before ++ (inner.tokens ++ after) := by
  induction h with
  | here => rw [List.nil_append, List.append_nil]
  | child h ih => simp [ih]

theorem Occurs.trans (h : Occurs inner before after mid) (h' : Occurs mid front rest tree) :
    Occurs inner (front ++ before) (after ++ rest) tree := by
  induction h' with
  | here => rwa [List.nil_append, List.append_nil]
  | child _ ih =>
    rw [List.append_assoc, ← List.append_assoc after]
    exact .child ih

theorem Occurs.after_eq (h : Occurs inner before rest tree)
    (ht : tree.tokens = before ++ (inner.tokens ++ after)) : rest = after := by
  rw [h.tokens] at ht
  exact List.append_cancel_left (List.append_cancel_left ht)

theorem OccursIn.first (h : Occurs inner before after tree) (right : List Tree) :
    OccursIn inner before (after ++ forestTokens right) (tree :: right) := by
  have hi : OccursIn inner (forestTokens [] ++ before) _ ([] ++ tree :: right) := .intro h
  exact hi

theorem occurs_leaf : ¬ Occurs (.node construct children) before after (.leaf t) := by
  rintro ⟨⟩

theorem occurs_node_iff : Occurs inner before after (.node construct children) ↔
    inner = .node construct children ∧ before = [] ∧ after = [] ∨
      OccursIn inner before after children := by
  constructor
  · intro h
    cases h with
    | here => exact .inl ⟨rfl, rfl, rfl⟩
    | child h => exact .inr (.intro h)
  · rintro (⟨rfl, rfl, rfl⟩ | h)
    · exact .here
    · cases h with
      | intro h => exact .child h

theorem occursIn_nil : ¬ OccursIn inner before after [] := by
  generalize ht : ([] : List Tree) = trees
  rintro ⟨h⟩
  simp at ht

theorem occursIn_append_iff : OccursIn inner before after (trees ++ more) ↔
    (∃ rest, OccursIn inner before rest trees ∧ after = rest ++ forestTokens more) ∨
      ∃ front, OccursIn inner front after more ∧ before = forestTokens trees ++ front := by
  constructor
  · generalize ht : trees ++ more = whole
    rintro ⟨h⟩
    rcases List.append_eq_append_iff.1 ht with ⟨left', rfl, rfl⟩ | ⟨right', rfl, hm⟩
    · refine .inr ⟨_, .intro h, ?_⟩
      rw [forestTokens_append, List.append_assoc]
    · cases right' with
      | nil =>
        obtain rfl : _ = more := hm
        exact .inr ⟨_, .first h _, by simp⟩
      | cons tree' right' =>
        obtain ⟨rfl, rfl⟩ := List.cons.inj hm
        exact .inl ⟨_, .intro h, by simp⟩
  · rintro (⟨rest, ⟨h⟩, rfl⟩ | ⟨front, ⟨h⟩, rfl⟩)
    · rw [List.append_assoc, ← forestTokens_append, List.append_assoc, List.cons_append]
      exact .intro h
    · rw [← List.append_assoc, ← forestTokens_append, ← List.append_assoc]
      exact .intro h

theorem occursIn_singleton_iff :
    OccursIn inner before after [tree] ↔ Occurs inner before after tree := by
  constructor
  · generalize ht : [tree] = trees
    rintro ⟨h⟩
    obtain ⟨rfl, ht⟩ | ⟨rfl, ht⟩ := List.append_eq_singleton_iff.1 ht.symm
    · cases ht
      simpa using h
    · cases ht
  · intro h
    simpa using OccursIn.first h []

theorem occursIn_cons_iff : OccursIn inner before after (tree :: trees) ↔
    (∃ rest, Occurs inner before rest tree ∧ after = rest ++ forestTokens trees) ∨
      ∃ front, OccursIn inner front after trees ∧ before = tree.tokens ++ front := by
  rw [← List.singleton_append, occursIn_append_iff]
  simp only [occursIn_singleton_iff, forestTokens_cons, forestTokens_nil, List.append_nil]

theorem occursIn_leaf_iff : OccursIn (.node construct children) before after (.leaf t :: trees) ↔
    ∃ front, OccursIn (.node construct children) front after trees ∧ before = t :: front := by
  simp [occursIn_cons_iff, occurs_leaf]

theorem occursIn_statement_iff :
    OccursIn (.node construct items) front rest [.node parent (.leaf head :: children)] ↔
      (Tree.node construct items = .node parent (.leaf head :: children) ∧
        front = [] ∧ rest = []) ∨
      ∃ front', OccursIn (.node construct items) front' rest children ∧ front = head :: front' := by
  rw [occursIn_singleton_iff, occurs_node_iff, occursIn_leaf_iff]

/-- Trees that get a node of their own stay where they are. -/
theorem occursIn_regroup_iff :
    OccursIn inner before after (left ++ .node construct children :: right) ↔
      OccursIn inner before after (left ++ (children ++ right)) ∨
        inner = .node construct children ∧ before = forestTokens left ∧
          after = forestTokens right := by
  have hn (front : List Token) :
      OccursIn inner front after (.node construct children :: right) ↔
        OccursIn inner front after (children ++ right) ∨
          inner = .node construct children ∧ front = [] ∧ after = forestTokens right := by
    rw [occursIn_cons_iff, occursIn_append_iff]
    constructor
    · rintro (⟨rest, h, rfl⟩ | h)
      · obtain ⟨rfl, rfl, rfl⟩ | h := occurs_node_iff.1 h
        · exact .inr ⟨rfl, rfl, rfl⟩
        · exact .inl (.inl ⟨rest, h, rfl⟩)
      · exact .inl (.inr h)
    · rintro ((⟨rest, h, rfl⟩ | h) | ⟨rfl, rfl, rfl⟩)
      · exact .inl ⟨rest, occurs_node_iff.2 (.inr h), rfl⟩
      · exact .inr h
      · exact .inl ⟨[], .here, rfl⟩
  rw [occursIn_append_iff, occursIn_append_iff, forestTokens_append, forestTokens_cons,
    Tree.tokens_node]
  constructor
  · rintro (h | ⟨front, h, rfl⟩)
    · exact .inl (.inl h)
    · obtain h | ⟨rfl, rfl, rfl⟩ := (hn front).1 h
      · exact .inl (.inr ⟨front, h, rfl⟩)
      · exact .inr ⟨rfl, List.append_nil _, rfl⟩
  · rintro ((h | ⟨front, h, rfl⟩) | ⟨rfl, rfl, rfl⟩)
    · exact .inl h
    · exact .inr ⟨front, (hn front).2 (.inl h), rfl⟩
    · exact .inr ⟨[], (hn []).2 (.inr ⟨rfl, rfl, rfl⟩), (List.append_nil _).symm⟩

end Jack
