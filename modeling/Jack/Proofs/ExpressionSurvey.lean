import Jack.Proofs.BlankPlaces
import Jack.Proofs.Occurrence

namespace Jack

/-- The constructs that have an expression only if it has content. -/
def Construct.needsContent : Construct → Bool
  | .expressionList | .returnStatement => true
  | _ => false

/-- What is known of the expressions and of the let statements in trees that stand between two
words. -/
structure Surveyed (before : List Token) (trees : List Tree) (after : List Token) : Prop where
  blank : ∀ children front rest, OccursIn (.node .expression children) front rest trees →
    HasContent children ∨ BlankPlace (before ++ front) (rest ++ after)
  needed : ∀ construct children front rest, OccursIn (.node construct children) front rest trees →
    construct.needsContent → ∀ inner, .node .expression inner ∈ children → HasContent inner
  filled : ∀ front gap rest, forestTokens trees ++ after = front ++ (gap ++ rest) → front ≠ [] →
    front.length ≤ (forestTokens trees).length → (∀ c ∈ gap, c.isComment) →
    BetweenBrackets (before ++ front) rest →
    ∃ rest, OccursIn (.node .expression (leaves gap)) front rest trees
  assignment : ∀ front head word, forestTokens trees ++ after = front ++ head :: word →
    front.length < (forestTokens trees).length → head.isKeyword .let_ → ¬ Parameterized word →
    ∃ children rest, OccursIn (.node .letStatement (.leaf head :: children)) front rest trees ∧
      ∀ next, Item (head :: forestTokens children)
        [.node .letStatement (.leaf head :: children)] next

theorem exists_of_append_eq {first second front rest : List α}
    (he : first ++ second = front ++ rest) (hl : first.length ≤ front.length) :
    ∃ more, front = first ++ more ∧ second = more ++ rest := by
  obtain ⟨more, rfl⟩ := List.prefix_of_prefix_length_le (List.prefix_append first second)
    (he ▸ List.prefix_append front rest) hl
  rw [List.append_assoc, List.append_cancel_left_eq] at he
  exact ⟨more, rfl, he⟩

namespace Surveyed

theorem nil : Surveyed before [] after where
  blank _ _ _ h := absurd h occursIn_nil
  needed _ _ _ _ h := absurd h occursIn_nil
  filled _ _ _ _ hn hl := absurd (List.eq_nil_of_length_eq_zero (Nat.le_zero.1 hl)) hn
  assignment _ _ _ _ hl := absurd hl (Nat.not_lt_zero _)

theorem append (hf : Surveyed before trees (forestTokens more ++ after))
    (hs : Surveyed (before ++ forestTokens trees) more after) :
    Surveyed before (trees ++ more) after where
  blank children front rest h := by
    obtain ⟨rest, hi, rfl⟩ | ⟨front, hi, rfl⟩ := occursIn_append_iff.1 h
    · rw [List.append_assoc]
      exact hf.blank _ _ _ hi
    · rw [← List.append_assoc]
      exact hs.blank _ _ _ hi
  needed construct children front rest h := by
    obtain ⟨rest, hi, rfl⟩ | ⟨front, hi, rfl⟩ := occursIn_append_iff.1 h
    · exact hf.needed _ _ _ _ hi
    · exact hs.needed _ _ _ _ hi
  filled front gap rest he hn hl hc hb := by
    rw [forestTokens_append, List.append_assoc] at he
    by_cases hle : front.length ≤ (forestTokens trees).length
    · obtain ⟨rest, hi⟩ := hf.filled front gap rest he hn hle hc hb
      exact ⟨_, occursIn_append_iff.2 (.inl ⟨rest, hi, rfl⟩)⟩
    · obtain ⟨front, rfl, hw⟩ := exists_of_append_eq he (Nat.le_of_not_le hle)
      have hn : front ≠ [] := by
        rintro rfl
        simp at hle
      rw [forestTokens_append, List.length_append, List.length_append] at hl
      rw [← List.append_assoc] at hb
      obtain ⟨rest, hi⟩ := hs.filled front gap rest hw hn (Nat.le_of_add_le_add_left hl) hc hb
      exact ⟨rest, occursIn_append_iff.2 (.inr ⟨front, hi, rfl⟩)⟩
  assignment front head word he hl hh hp := by
    rw [forestTokens_append, List.append_assoc] at he
    by_cases hlt : front.length < (forestTokens trees).length
    · obtain ⟨children, rest, hi, hd⟩ := hf.assignment front head word he hlt hh hp
      exact ⟨children, _, occursIn_append_iff.2 (.inl ⟨rest, hi, rfl⟩), hd⟩
    · obtain ⟨front, rfl, hw⟩ := exists_of_append_eq he (Nat.le_of_not_lt hlt)
      rw [forestTokens_append, List.length_append, List.length_append] at hl
      obtain ⟨children, rest, hi, hd⟩ :=
        hs.assignment front head word hw (Nat.lt_of_add_lt_add_left hl) hh hp
      exact ⟨children, rest, occursIn_append_iff.2 (.inr ⟨front, hi, rfl⟩), hd⟩

/-- A token before trees opens no gap that the trees do not fill, and no let statement. -/
theorem leaf (hg : ∀ gap rest, forestTokens trees ++ after = gap ++ rest →
      (∀ c ∈ gap, c.isComment) → BetweenBrackets (before ++ [t]) rest →
      ∃ rest, OccursIn (.node .expression (leaves gap)) [] rest trees)
    (ha : t.isKeyword .let_ → Parameterized (forestTokens trees ++ after))
    (h : Surveyed (before ++ [t]) trees after) : Surveyed before (.leaf t :: trees) after where
  blank children front rest h' := by
    obtain ⟨front, hi, rfl⟩ := occursIn_leaf_iff.1 h'
    have hb := h.blank _ _ _ hi
    rwa [List.append_assoc] at hb
  needed construct children front rest h' := by
    obtain ⟨front, hi, rfl⟩ := occursIn_leaf_iff.1 h'
    exact h.needed _ _ _ _ hi
  filled front gap rest he hn hl hc hb := by
    obtain ⟨_, front, rfl⟩ := List.exists_cons_of_ne_nil hn
    obtain ⟨rfl, hw⟩ := List.cons.inj he
    by_cases hf : front = []
    · subst hf
      obtain ⟨rest, hi⟩ := hg gap rest hw hc hb
      exact ⟨rest, occursIn_leaf_iff.2 ⟨[], hi, rfl⟩⟩
    · rw [List.append_cons] at hb
      obtain ⟨rest, hi⟩ := h.filled front gap rest hw hf (Nat.le_of_succ_le_succ hl) hc hb
      exact ⟨rest, occursIn_leaf_iff.2 ⟨front, hi, rfl⟩⟩
  assignment front head word he hl hh hp := by
    cases front with
    | nil =>
      obtain ⟨rfl, rfl⟩ := List.cons.inj he
      exact absurd (ha hh) hp
    | cons _ front =>
      obtain ⟨rfl, hw⟩ := List.cons.inj he
      obtain ⟨children, rest, hi, hd⟩ :=
        h.assignment front head word hw (Nat.lt_of_succ_lt_succ hl) hh hp
      exact ⟨children, rest, occursIn_leaf_iff.2 ⟨front, hi, rfl⟩, hd⟩

/-- Trees get a node of their own, which is an expression only where one may stand. -/
theorem regroup
    (he : construct = .expression →
      HasContent children ∨ BlankPlace (before ++ forestTokens left) (forestTokens right ++ after))
    (hn : construct.needsContent → ∀ inner, .node .expression inner ∈ children → HasContent inner)
    (h : Surveyed before (left ++ (children ++ right)) after) :
    Surveyed before (left ++ .node construct children :: right) after := by
  have ht : forestTokens (left ++ .node construct children :: right) =
      forestTokens (left ++ (children ++ right)) := by simp
  refine ⟨fun inner front rest hi => ?_, fun parent inner front rest hi => ?_,
    fun front gap rest hw hf hl hc hb => ?_, fun front head word hw hl hh hp => ?_⟩
  · obtain hi | ⟨⟨⟩, rfl, rfl⟩ := occursIn_regroup_iff.1 hi
    · exact h.blank _ _ _ hi
    · exact he rfl
  · obtain hi | ⟨⟨⟩, rfl, rfl⟩ := occursIn_regroup_iff.1 hi
    · exact h.needed _ _ _ _ hi
    · exact hn
  · rw [ht] at hw hl
    obtain ⟨rest, hi⟩ := h.filled front gap rest hw hf hl hc hb
    exact ⟨rest, occursIn_regroup_iff.2 (.inl hi)⟩
  · rw [ht] at hw hl
    obtain ⟨children, rest, hi, hd⟩ := h.assignment front head word hw hl hh hp
    exact ⟨children, rest, occursIn_regroup_iff.2 (.inl hi), hd⟩

theorem node (he : construct ≠ .expression)
    (hn : construct.needsContent → ∀ inner, .node .expression inner ∈ children → HasContent inner)
    (h : Surveyed before children after) : Surveyed before [.node construct children] after := by
  have hr : Surveyed before ([] ++ .node construct children :: []) after := by
    refine regroup (fun hc => absurd hc he) hn ?_
    rwa [List.nil_append, List.append_nil]
  exact hr

end Surveyed

def Token.isQuiet (t : Token) : Bool :=
  match t.lexeme with
  | .symbol char => char != '[' && char != '('
  | .keyword word => word != .let_
  | _ => true

def Expected.isQuiet : Expected → Bool
  | .symbol char => char != '[' && char != '('
  | .keyword word => word != .let_
  | .identifier => true
  | .returnType => false

theorem Terminal.isQuiet (he : expected.isQuiet) (ht : Terminal expected t) : t.isQuiet := by
  cases ht with
  | symbol | keyword => exact he
  | identifier | className => rfl
  | builtInType => cases he

theorem Token.isQuiet_of_comment {t : Token} (h : t.isComment) : t.isQuiet := by
  rw [Token.isComment_iff] at h
  obtain ⟨text, h⟩ := h
  simp [isQuiet, h]

theorem Token.isQuiet_of_plain (h : Plain t next) : t.isQuiet := by
  cases h with
  | @keyword word line _ h =>
    simp only [isQuiet, bne_iff_ne]
    rintro rfl
    exact absurd h (by decide)
  | symbol h =>
    simp only [List.mem_cons, List.not_mem_nil, or_false, not_or] at h
    simp [isQuiet, h]
  | identifier | integer | string | comment => rfl

namespace Surveyed

theorem quiet (hq : t.isQuiet) (h : Surveyed (before ++ [t]) trees after) :
    Surveyed before (.leaf t :: trees) after := by
  refine leaf (fun gap rest _ _ hb => ?_) (fun hl => ?_) h
  · obtain ⟨ho, -⟩ | ⟨-, ho, -⟩ := hb.of_concat <;>
      simp [Token.isQuiet, Token.isSymbol_iff.1 ho] at hq
  · simp [Token.isQuiet, Token.isKeyword_iff.1 hl] at hq

theorem comments (hc : ∀ c ∈ gap, c.isComment) (h : Surveyed (before ++ gap) trees after) :
    Surveyed before (leaves gap ++ trees) after := by
  induction gap generalizing before with
  | nil => rwa [List.append_nil] at h
  | cons c gap ih =>
    obtain ⟨hc, hg⟩ := List.forall_mem_cons.1 hc
    rw [List.append_cons] at h
    exact quiet (Token.isQuiet_of_comment hc) (ih hg h)

theorem spaced (he : expected.isQuiet) (hp : Spaced expected place)
    (h : Surveyed (before ++ place) trees after) :
    Surveyed before (leaves place ++ trees) after := by
  cases hp with
  | intro hg ht =>
    rw [← List.append_assoc] at h
    rw [leaves_append, List.append_assoc]
    exact comments (gap_iff.1 hg) (quiet (ht.isQuiet he) h)

theorem spacedCall (hn : EndsInName before) (hp : Spaced (.symbol '(') place)
    (h : Surveyed (before ++ place) trees after) :
    Surveyed before (leaves place ++ trees) after := by
  cases hp with
  | @intro gap t hg ht =>
    have hs := terminal_symbol_iff.1 ht
    have hc := gap_iff.1 hg
    rw [← List.append_assoc] at h
    rw [leaves_append, List.append_assoc]
    refine comments hc (leaf (fun gap rest _ _ hb => ?_) (fun hl => ?_) h)
    · obtain ⟨ho, -⟩ | ⟨hg, -⟩ := hb.of_concat
      · simp [hs, Token.isSymbol_iff] at ho
      · exact absurd ((endsInName_append_comments hc before).2 hn) hg
    · simp [hs, Token.isKeyword_iff] at hl

end Surveyed

theorem Run.expression_inv (h : Run closer .expression word trees) :
    ∃ inner items close, Items inner items (some close) ∧ close.isSymbol closer ∧
      word = inner ++ [close] ∧ trees = [expressionOf items, .leaf close] := by
  cases h with
  | intro hi hc ha =>
    cases ha with
    | expression he =>
      rw [isExpression_iff.1 he]
      exact ⟨_, _, _, hi, terminal_iff.1 hc, rfl, rfl⟩

theorem items_comments (hc : ∀ c ∈ gap, c.isComment) (next : Option Token) :
    Items gap (leaves gap) next := by
  induction gap with
  | nil => exact .nil
  | cons c gap ih =>
    obtain ⟨hc, hg⟩ := List.forall_mem_cons.1 hc
    obtain ⟨lexeme, line⟩ := c
    obtain ⟨text, rfl⟩ : ∃ text, lexeme = .comment text := Token.isComment_iff.1 hc
    exact .cons (.plain .comment) (ih hg)

theorem expressionOf_comments (hc : ∀ c ∈ gap, c.isComment) :
    expressionOf (leaves gap) = .node .expression (leaves gap) := by
  rw [expressionOf]
  congr 1
  rw [leaves, List.map_map]
  refine List.map_congr_left fun c hm => ?_
  rw [Function.comp_apply, Tree.asOperand, if_neg (by simp [hc c hm])]

namespace Surveyed

/-- Brackets around an expression. Their gap is filled by the expression, if all else in it are
comments. -/
theorem bracket (ho : t.isSymbol opening)
    (hp : opening = '[' ∧ closer = ']' ∨ opening = '(' ∧ closer = ')')
    (hr : Run closer .expression word index) (hw : forestTokens index = word)
    (h : Surveyed (before ++ [t]) (index ++ trees) after) :
    Surveyed before (.leaf t :: (index ++ trees)) after := by
  refine leaf (fun gap rest he hc hb => ?_) (fun hl => ?_) h
  · obtain ⟨inner, items, close, hi, hcl, rfl, rfl⟩ := hr.expression_inv
    obtain ⟨closing, rest, rfl, hcl'⟩ : ∃ closing rest', rest = closing :: rest' ∧
        closing.isSymbol closer := by
      rw [Token.isSymbol_iff] at ho
      obtain ⟨hs, hb⟩ | ⟨-, hs, hb⟩ := hb.of_concat
      · obtain ⟨rfl, rfl⟩ | ⟨rfl, rfl⟩ := hp
        · exact hb
        · simp [Token.isSymbol_iff, ho] at hs
      · obtain ⟨rfl, rfl⟩ | ⟨rfl, rfl⟩ := hp
        · simp [Token.isSymbol_iff, ho] at hs
        · exact hb
    have hk : Choice.ofSymbol closer = .closer := by
      obtain ⟨-, rfl⟩ | ⟨-, rfl⟩ := hp <;> rfl
    rw [forestTokens_append, hw, List.append_assoc, List.append_assoc] at he
    obtain ⟨rfl, rfl⟩ := Parser.items_unique hk hi (items_comments hc _) hcl hcl' he
    rw [expressionOf_comments hc]
    exact ⟨_, .first .here _⟩
  · simp [Token.isSymbol_iff.1 ho, Token.isKeyword_iff] at hl

end Surveyed

theorem Tree.isComment_asOperand (tree : Tree) : tree.asOperand.isComment = tree.isComment := by
  cases tree with
  | node => rfl
  | leaf t =>
    rw [asOperand]
    split
    · next h =>
      rw [Bool.and_eq_true, Bool.not_eq_true'] at h
      exact h.2.symm
    · rfl

theorem hasContent_operands : HasContent (items.map Tree.asOperand) ↔ HasContent items := by
  simp [HasContent, remark_iff, Tree.isComment_asOperand]

namespace Surveyed

theorem operands (h : Surveyed before (left ++ (items ++ right)) after) :
    Surveyed before (left ++ (items.map Tree.asOperand ++ right)) after := by
  induction items generalizing left with
  | nil => exact h
  | cons item items ih =>
    have ho : Surveyed before (left ++ item.asOperand :: (items ++ right)) after := by
      cases item with
      | node => exact h
      | leaf t =>
        rw [Tree.asOperand]
        split
        · exact regroup (fun he => absurd he (by decide)) (fun hn => absurd hn (by decide)) h
        · exact h
    rw [List.append_cons] at ho
    rw [List.map_cons, List.cons_append, List.append_cons]
    exact ih ho

theorem expression (he : HasContent items ∨
      BlankPlace (before ++ forestTokens left) (forestTokens right ++ after))
    (h : Surveyed before (left ++ (items ++ right)) after) :
    Surveyed before (left ++ expressionOf items :: right) after :=
  regroup (fun _ => he.imp_left hasContent_operands.2) nofun h.operands

theorem arguments (ha : Arguments items children)
    (h : Surveyed before (left ++ (items ++ right)) after) :
    Surveyed before (left ++ (children ++ right)) after := by
  induction ha generalizing left with
  | last _ hc he =>
    rw [isExpression_iff.1 he]
    exact expression (.inl hc) h
  | @cons chunk tree comma items children _ hc he _ _ ih =>
    rw [List.append_assoc] at h
    have hf := expression (.inl hc) h
    rw [← isExpression_iff.1 he, List.cons_append, List.append_cons, List.append_cons] at hf
    rw [List.cons_append, List.cons_append, List.append_cons, List.append_cons]
    exact ih hf

end Surveyed

theorem Arguments.needed (h : Arguments items children) :
    ∀ inner, .node .expression inner ∈ children → HasContent inner := by
  have hi {chunk inner : List Tree} {tree : Tree} (he : IsExpression chunk tree)
      (hc : HasContent chunk) (ht : .node .expression inner = tree) : HasContent inner := by
    rw [isExpression_iff.1 he] at ht
    cases ht
    exact hasContent_operands.2 hc
  intro inner
  induction h with
  | last _ hc he =>
    intro hm
    exact hi he hc (List.mem_singleton.1 hm)
  | cons _ hc he _ _ ih =>
    intro hm
    simp only [List.mem_cons, reduceCtorEq, false_or] at hm
    exact hm.elim (hi he hc) ih

theorem not_mem_of_no_content (h : ¬ HasContent items) : .node construct children ∉ items :=
  fun hm => h ⟨_, hm, nofun⟩

def Layout.isSound : Layout → Bool
  | .grouped construct => construct != .expression && !construct.needsContent
  | _ => true

namespace Surveyed

theorem between (h : Surveyed before trees after) :
    Surveyed before ([] ++ (trees ++ [])) after := by
  rwa [List.nil_append, List.append_nil]

theorem arranged (ha : Arranged layout items children) (hl : layout.isSound)
    (he : layout = .expression → BlankPlace before after) (h : Surveyed before items after) :
    Surveyed before children after := by
  cases ha with
  | spliced | noValue => exact h
  | grouped =>
    rw [Layout.isSound, Bool.and_eq_true, bne_iff_ne, Bool.not_eq_true'] at hl
    exact node hl.1 (fun hn => absurd hn (by simp [hl.2])) h
  | expression hi =>
    rw [isExpression_iff.1 hi]
    have hb : BlankPlace (before ++ forestTokens []) (forestTokens [] ++ after) := by
      simpa using he rfl
    exact expression (.inr hb) h.between
  | noArguments hc =>
    exact node nofun (fun _ inner hm => absurd hm (not_mem_of_no_content hc)) h
  | arguments ha =>
    have hc := arguments ha h.between
    rw [List.nil_append, List.append_nil] at hc
    exact node nofun (fun _ => ha.needed) hc
  | value hc hi =>
    rw [isExpression_iff.1 hi]
    exact expression (.inl hc) h.between
  | @body locals statements =>
    rw [← List.append_nil statements] at h
    exact regroup nofun nofun h

end Surveyed

theorem Arranged.needed (h : Arranged .value items children) :
    ∀ inner, .node .expression inner ∈ children → HasContent inner := by
  intro inner hm
  cases h with
  | noValue hc => exact absurd hm (not_mem_of_no_content hc)
  | value hc hi =>
    rw [isExpression_iff.1 hi] at hm
    cases List.mem_singleton.1 hm
    exact hasContent_operands.2 hc

end Jack
