import Jack.Proofs.Leaves

namespace Jack

def bracketPairs : List (Char × Char) := [('(', ')'), ('[', ']'), ('\x7b', '\x7d')]

def isBracket (char : Char) : Bool :=
  bracketPairs.any fun (opening, closing) => char == opening || char == closing

/-- The brackets among tokens, in their order. -/
def brackets (ts : List Token) : List Char := (ts.filterMap Token.symbol?).filter isBracket

/-- Words in which every opening bracket has its closing one. -/
inductive Balanced : List Char → Prop where
  | nil : Balanced []
  | wrap (hp : (opening, closing) ∈ bracketPairs) (hi : Balanced word) (hr : Balanced rest) :
      Balanced (opening :: (word ++ closing :: rest))

/-- Words that close the brackets on a stack, from its top, and all that they open. -/
inductive Closes : List Char → List Char → Prop where
  | nil : Closes [] []
  | opening (hp : (opening, closing) ∈ bracketPairs) (h : Closes (closing :: stack) word) :
      Closes stack (opening :: word)
  | closing (h : Closes stack word) : Closes (closing :: stack) (closing :: word)

theorem Closes.append (h : Closes stack word) (h' : Closes stack' word') :
    Closes (stack ++ stack') (word ++ word') := by
  induction h with
  | nil => exact h'
  | opening hp _ ih => exact .opening hp ih
  | closing _ ih => exact .closing ih

theorem Balanced.closes (h : Balanced word) : Closes [] word := by
  induction h with
  | nil => exact .nil
  | wrap hp _ _ ihi ihr => exact .opening hp (ihi.append (.closing ihr))

def Divided : List Char → List Char → Prop
  | [], word => Balanced word
  | closing :: stack, word =>
    ∃ inner rest, word = inner ++ closing :: rest ∧ Balanced inner ∧ Divided stack rest

theorem Divided.cons (hp : (opening, closing) ∈ bracketPairs)
    (h : Divided (closing :: stack) word) : Divided stack (opening :: word) := by
  obtain ⟨inner, rest, rfl, hi, hr⟩ := h
  cases stack with
  | nil => exact .wrap hp hi hr
  | cons closing' stack =>
    obtain ⟨inner', rest, rfl, hi', hr⟩ := hr
    exact ⟨opening :: (inner ++ closing :: inner'), rest, by simp, .wrap hp hi hi', hr⟩

theorem Closes.divided (h : Closes stack word) : Divided stack word := by
  induction h with
  | nil => exact Balanced.nil
  | opening hp _ ih => exact ih.cons hp
  | closing _ ih => exact ⟨[], _, rfl, .nil, ih⟩

/-- A word is balanced when it leaves no bracket open and closes none that it has not opened. -/
theorem balanced_iff_closes : Balanced word ↔ Closes [] word :=
  ⟨Balanced.closes, Closes.divided⟩

theorem Balanced.append (h : Balanced word) (h' : Balanced word') : Balanced (word ++ word') :=
  balanced_iff_closes.2 (h.closes.append h'.closes)

@[simp] theorem brackets_append (first second : List Token) :
    brackets (first ++ second) = brackets first ++ brackets second := by
  simp only [brackets, List.filterMap_append, List.filter_append]

def Token.isInner (t : Token) : Bool := t.symbol?.all fun char => !isBracket char && char != ';'

theorem brackets_cons_of_symbol {t : Token} (ht : t.isSymbol char) (ts : List Token) :
    brackets (t :: ts) = if isBracket char then char :: brackets ts else brackets ts := by
  simp only [Token.isSymbol, beq_iff_eq] at ht
  simp [brackets, ht, List.filter_cons]

theorem brackets_cons_of_inner {t : Token} (ht : t.isInner) (ts : List Token) :
    brackets (t :: ts) = brackets ts := by
  cases hs : t.symbol? with
  | none => simp [brackets, hs]
  | some char =>
    simp only [Token.isInner, hs, Option.all_some, Bool.and_eq_true, Bool.not_eq_true'] at ht
    simp [brackets, hs, ht.1]

def directTokens (children : List Tree) : List Token := children.filterMap Tree.token?

@[simp] theorem directTokens_leaf (t : Token) (trees : List Tree) :
    directTokens (.leaf t :: trees) = t :: directTokens trees := rfl

/-- The declarations and statements that end in a semicolon. -/
def Construct.isTerminated : Construct → Bool
  | .classVarDec | .varDec | .letStatement | .doStatement | .returnStatement => true
  | _ => false

/-- The direct children of an element have the brackets in pairs, and a semicolon only as the end
of a declaration or a statement. -/
structure PairedChildren (construct : Construct) (children : List Tree) : Prop where
  balanced : Balanced (brackets (directTokens children))
  terminators : (directTokens children).countP (·.isSymbol ';') =
    if construct.isTerminated then 1 else 0
  last : construct.isTerminated → ∃ front t, children = front ++ [.leaf t] ∧ t.isSymbol ';'

/-- A tree stands in another one, with the leaves before it and after it. -/
inductive Occurs (inner : Tree) : List Token → List Token → Tree → Prop where
  | here : Occurs inner [] [] inner
  | child (h : Occurs inner before after tree) :
      Occurs inner (forestTokens left ++ before) (after ++ forestTokens right)
        (.node construct (left ++ tree :: right))

def Tree.Paired (tree : Tree) : Prop :=
  ∀ construct children before after, Occurs (.node construct children) before after tree →
    PairedChildren construct children

theorem Tree.paired_leaf (t : Token) : (Tree.leaf t).Paired := by
  rintro construct children before after ⟨⟩

theorem Tree.paired_node_iff {children : List Tree} : (Tree.node construct children).Paired ↔
    PairedChildren construct children ∧ ∀ tree ∈ children, tree.Paired := by
  constructor
  · intro h
    refine ⟨h _ _ _ _ .here, fun tree hm construct' children' before after ho => ?_⟩
    obtain ⟨left, right, rfl⟩ := List.append_of_mem hm
    exact h _ _ _ _ (.child ho)
  · rintro ⟨hc, h⟩ construct' children' before after ho
    cases ho with
    | here => exact hc
    | child ho => exact h _ (by simp) _ _ _ _ ho

theorem Closes.replace (hr : ∀ stack, Closes stack word → Closes stack word')
    (h : Closes stack (front ++ word)) : Closes stack (front ++ word') := by
  induction front generalizing stack with
  | nil => exact hr stack h
  | cons char front ih =>
    cases h with
    | opening hp h => exact .opening hp (ih h)
    | closing h => exact .closing (ih h)

/-- Elements between the direct tokens of an element add balanced words only. -/
theorem Closes.forest : (trees : List Tree) →
    (h : Closes stack (brackets (directTokens trees))) → (ht : ∀ tree ∈ trees, tree.Paired) →
    Closes stack (brackets (forestTokens trees))
  | [], h, _ => h
  | .node construct children :: trees, h, ht => by
    obtain ⟨hc, hp⟩ := Tree.paired_node_iff.1 (ht _ (List.mem_cons_self ..))
    have hb := Closes.forest children hc.balanced.closes hp
    rw [forestTokens_cons, brackets_append]
    exact hb.append (Closes.forest trees h fun tree hm => ht tree (List.mem_cons_of_mem _ hm))
  | .leaf t :: trees, h, ht => by
    -- The leaf may open or close a bracket, so that the rest is needed for every stack.
    have hr (stack : List Char) (h : Closes stack (brackets (directTokens trees))) :=
      Closes.forest trees h fun tree hm => ht tree (List.mem_cons_of_mem _ hm)
    rw [forestTokens_cons, brackets_append]
    apply Closes.replace hr
    rw [← brackets_append]
    exact h

theorem Tree.Paired.balanced {children : List Tree} (h : (Tree.node construct children).Paired) :
    Balanced (brackets (Tree.node construct children).tokens) := by
  obtain ⟨hc, ht⟩ := Tree.paired_node_iff.1 h
  exact balanced_iff_closes.2 (.forest _ hc.balanced.closes ht)

/-- A leaf below an element is a direct child of an element. The trees `seen` are the children to
the left of those that are searched. -/
theorem Occurs.parent (root : Construct) (seen : List Tree) : (trees : List Tree) →
    (h : forestTokens trees = before ++ t :: after) →
    ∃ construct left right start finish,
      Occurs (.node construct (left ++ .leaf t :: right)) start finish
          (.node root (seen ++ trees)) ∧
        forestTokens seen ++ before = start ++ forestTokens left ∧
        after = forestTokens right ++ finish
  | [], h => by
    simp at h
  | .leaf t' :: trees, h => by
    rw [forestTokens_cons, Tree.tokens_leaf, List.singleton_append] at h
    cases before with
    | nil =>
      cases h
      exact ⟨root, seen, trees, [], [], .here, by simp, by simp⟩
    | cons _ before =>
      rw [List.cons_append, List.cons.injEq] at h
      obtain ⟨rfl, h⟩ := h
      have hp := Occurs.parent root (seen ++ [.leaf t']) trees h
      simpa using hp
  | .node construct children :: trees, h => by
    rw [forestTokens_cons, Tree.tokens_node, List.append_eq_append_iff] at h
    rcases h with ⟨before, rfl, h⟩ | ⟨inside, hc, h⟩
    · have hp := Occurs.parent root (seen ++ [.node construct children]) trees h
      simpa using hp
    · cases inside with
      | nil =>
        have hw : forestTokens trees = [] ++ t :: after := h.symm
        have hp := Occurs.parent root (seen ++ [.node construct children]) trees hw
        simpa [hc] using hp
      | cons t' inside =>
        obtain ⟨rfl, rfl⟩ := List.cons.inj h
        obtain ⟨parent, left, right, start, finish, ho, hb, rfl⟩ :=
          Occurs.parent construct [] children hc
        refine ⟨parent, left, right, _, _, .child ho, ?_, by simp⟩
        rw [forestTokens_nil, List.nil_append] at hb
        rw [hb, List.append_assoc]

theorem PairedChildren.terminator (h : PairedChildren construct (left ++ .leaf t :: right))
    (ht : t.isSymbol ';') : construct.isTerminated ∧ right = [] := by
  have hn := h.terminators
  have hd : directTokens (left ++ .leaf t :: right) =
      directTokens left ++ t :: directTokens right := by
    simp [directTokens, Tree.token?]
  rw [hd, List.countP_append, List.countP_cons, if_pos ht] at hn
  split at hn
  case isFalse => omega
  case isTrue hc =>
    refine ⟨hc, ?_⟩
    obtain rfl | ⟨front', last, rfl⟩ := right.eq_nil_or_concat
    · rfl
    obtain ⟨front, t', hl, ht'⟩ := h.last hc
    rw [List.concat_eq_append, ← List.cons_append, ← List.append_assoc] at hl
    obtain ⟨-, hl⟩ := List.append_inj' hl rfl
    obtain rfl : last = .leaf t' := by simpa using hl
    have hr : 0 < (directTokens (front'.concat (.leaf t'))).countP (·.isSymbol ';') :=
      List.countP_pos_iff.2 ⟨t', by simp [directTokens, Tree.token?], ht'⟩
    omega

theorem Tree.Paired.terminator (h : (Tree.node root trees).Paired)
    (hw : forestTokens trees = before ++ t :: after) (ht : t.isSymbol ';') :
    ∃ construct children start,
      Occurs (.node construct (children ++ [.leaf t])) start after (.node root trees) ∧
        construct.isTerminated ∧ before = start ++ forestTokens children := by
  obtain ⟨construct, left, right, start, finish, ho, hb, rfl⟩ := Occurs.parent root [] trees hw
  obtain ⟨hc, rfl⟩ := (h _ _ _ _ ho).terminator ht
  exact ⟨construct, left, start, ho, hc, hb⟩

end Jack
