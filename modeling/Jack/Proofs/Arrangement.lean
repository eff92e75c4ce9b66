import Jack.Proofs.Fronts
import Jack.Proofs.Leaves
import Jack.Proofs.Terminals
import Mathlib.Data.List.Forall2

namespace Jack

/-- An item and what becomes of it inside an expression. -/
inductive Operand : Tree → Tree → Prop where
  | node : Operand (.node construct children) (.node construct children)
  | symbol (h : Terminal (.symbol char) t) : Operand (.leaf t) (.leaf t)
  | comment (h : Comment t) : Operand (.leaf t) (.leaf t)
  | term (hs : ∀ char, ¬ Terminal (.symbol char) t) (hc : ¬ Comment t) :
      Operand (.leaf t) (.node .term [.leaf t])

inductive IsExpression : List Tree → Tree → Prop where
  | intro (h : List.Forall₂ Operand items children) :
      IsExpression items (.node .expression children)

inductive Remark : Tree → Prop where
  | intro (h : Comment t) : Remark (.leaf t)

def HasContent (items : List Tree) : Prop := ∃ item ∈ items, ¬ Remark item

def NoComma (items : List Tree) : Prop := ∀ t, .leaf t ∈ items → ¬ Terminal (.symbol ',') t

/-- Chunks with content and the commas between them, each chunk made an expression. -/
inductive Arguments : List Tree → List Tree → Prop where
  | last (hn : NoComma chunk) (hc : HasContent chunk)
      (he : IsExpression chunk tree) : Arguments chunk [tree]
  | cons (hn : NoComma chunk) (hc : HasContent chunk) (he : IsExpression chunk tree)
      (hk : Terminal (.symbol ',') comma) (hr : Arguments items children) :
      Arguments (chunk ++ .leaf comma :: items) (tree :: .leaf comma :: children)

inductive Leading : Tree → Prop where
  | varDec : Leading (.node .varDec children)
  | remark (h : Comment t) : Leading (.leaf t)

/-- The items of a run and the children of its construct that they become. -/
inductive Arranged : Layout → List Tree → List Tree → Prop where
  | spliced : Arranged .spliced items items
  | grouped : Arranged (.grouped construct) items [.node construct items]
  | expression (he : IsExpression items tree) : Arranged .expression items [tree]
  | noArguments (hc : ¬ HasContent items) :
      Arranged .arguments items [.node .expressionList items]
  | arguments (ha : Arguments items children) :
      Arranged .arguments items [.node .expressionList children]
  | noValue (hc : ¬ HasContent items) : Arranged .value items items
  | value (hc : HasContent items) (he : IsExpression items tree) : Arranged .value items [tree]
  | body (hl : ∀ item ∈ locals, Leading item)
      (hs : ∀ item, statements.head? = some item → ¬ Leading item) :
      Arranged .body (locals ++ statements) (locals ++ [.node .statements statements])

theorem symbol?_eq_none_iff : t.symbol? = none ↔ ∀ char, ¬ Terminal (.symbol char) t := by
  obtain ⟨lexeme, line⟩ := t
  simp only [terminal_iff, Expected.accepts, Token.isSymbol_iff]
  cases lexeme <;> simp [Token.symbol?]

theorem operand_iff : Operand item child ↔ child = item.asOperand := by
  constructor
  · intro h
    cases h with
    | node => rfl
    | symbol h =>
      have hs : ¬ Token.symbol? _ = none := fun hn => symbol?_eq_none_iff.1 hn _ h
      rw [Tree.asOperand, if_neg (by simp [Option.isNone_iff_eq_none, hs])]
    | comment h => rw [Tree.asOperand, if_neg (by simp [comment_iff.1 h])]
    | term hs hc =>
      rw [comment_iff] at hc
      rw [Tree.asOperand, if_pos (by simp [symbol?_eq_none_iff.2 hs, hc])]
  · rintro rfl
    cases item with
    | node => exact .node
    | leaf t =>
      rw [Tree.asOperand]
      by_cases hc : t.isComment
      · rw [if_neg (by simp [hc])]
        exact .comment (comment_iff.2 hc)
      cases hs : t.symbol? with
      | none =>
        rw [if_pos (by simp [hc])]
        exact .term (symbol?_eq_none_iff.1 hs) (mt comment_iff.1 hc)
      | some char =>
        have hc : Terminal (.symbol char) t := terminal_iff.2 (beq_iff_eq.2 hs)
        exact .symbol hc

theorem isExpression_iff : IsExpression items tree ↔ tree = expressionOf items := by
  constructor
  · rintro ⟨h⟩
    rw [expressionOf]
    congr 1
    induction h with
    | nil => rfl
    | cons ho _ ih => rw [List.map_cons, ← operand_iff.1 ho, ← ih]
  · rintro rfl
    constructor
    rw [List.forall₂_map_right_iff]
    exact List.forall₂_same.2 fun item _ => operand_iff.2 rfl

theorem remark_iff : Remark tree ↔ tree.isComment := by
  constructor
  · rintro ⟨h⟩
    exact comment_iff.1 h
  · intro h
    cases tree with
    | node => cases h
    | leaf t => exact .intro (comment_iff.2 h)

theorem hasContent_iff : hasContent items ↔ HasContent items := by
  simp [hasContent, HasContent, remark_iff]

theorem hasContent_eq_false_iff : hasContent items = false ↔ ¬ HasContent items := by
  rw [← hasContent_iff, Bool.not_eq_true]

theorem noComma_iff : NoComma items ↔ ∀ item ∈ items, ¬ item.isSymbol ',' := by
  constructor
  · intro h item hm hs
    cases item with
    | node => cases hs
    | leaf t => exact h t hm (terminal_iff.2 hs)
  · intro h t hm ht
    exact h _ hm (terminal_iff.1 ht)

theorem leading_iff : Leading item ↔ item.isLeading := by
  constructor
  · intro h
    cases h with
    | varDec => rfl
    | remark h => exact comment_iff.1 h
  · intro h
    cases item with
    | leaf t => exact .remark (comment_iff.2 h)
    | node construct children =>
      cases construct <;> first | exact .varDec | cases h

theorem Arguments.argumentsOf (h : Arguments items children) :
    Jack.argumentsOf (splitCommas items).1 (splitCommas items).2 = .ok children ∧
      hasContent (splitCommas items).1 := by
  induction h with
  | @last chunk tree hn hc he =>
    rw [splitCommas_of_no_comma (noComma_iff.1 hn), isExpression_iff.1 he]
    exact ⟨rfl, hasContent_iff.2 hc⟩
  | @cons chunk tree comma items children hn hc he hk _ ih =>
    obtain ⟨hr, hi⟩ := ih
    rw [splitCommas_append (noComma_iff.1 hn), splitCommas_comma (terminal_iff.1 hk),
      List.append_nil]
    refine ⟨?_, hasContent_iff.2 hc⟩
    simp [Jack.argumentsOf, hr, hi, hasContent_iff.2 hc, isExpression_iff.1 he]

theorem arguments_of_argumentsOf (h : argumentsOf chunk chunks = .ok children)
    (hn : ∀ item ∈ chunk, ¬ item.isSymbol ',')
    (hs : ∀ pair ∈ chunks, pair.1.isSymbol ',' ∧ ∀ item ∈ pair.2, ¬ item.isSymbol ',')
    (hc : chunks = [] → hasContent chunk) : Arguments (chunk ++ joinCommas chunks) children := by
  induction chunks generalizing chunk children with
  | nil =>
    cases h
    rw [joinCommas_nil, List.append_nil]
    exact .last (noComma_iff.2 hn) (hasContent_iff.1 (hc rfl)) (isExpression_iff.2 rfl)
  | cons pair chunks ih =>
    obtain ⟨comma, next⟩ := pair
    obtain ⟨hk, hnext⟩ := hs _ (List.mem_cons_self ..)
    obtain ⟨hchunk, hlast, rest, hr, rfl⟩ := argumentsOf_cons_eq_ok h
    have hmore := ih hr hnext (fun pair hm => hs pair (List.mem_cons_of_mem _ hm)) hlast
    exact .cons (noComma_iff.2 hn) (hasContent_iff.1 hchunk) (isExpression_iff.2 rfl)
      (terminal_iff.2 hk) hmore

theorem Arranged.of_expressionList (h : expressionList items = .ok tree) :
    Arranged .arguments items [tree] := by
  have hj := splitCommas_join items
  obtain ⟨hn, hs⟩ := splitCommas_commas items
  obtain ⟨he, hc, rfl⟩ | ⟨hc, children, hr, rfl⟩ := expressionList_eq_ok h
  · rw [he, joinCommas_nil, List.append_nil] at hj
    rw [hj] at hc
    exact .noArguments fun hi => hc (hasContent_iff.2 hi)
  · have ha := arguments_of_argumentsOf hr hn hs hc
    rw [hj] at ha
    exact .arguments ha

theorem Arguments.expressionList (h : Arguments items children) :
    expressionList items = .ok (.node .expressionList children) := by
  obtain ⟨hr, hc⟩ := h.argumentsOf
  rw [expressionList_eq, if_neg (by simp [hc]), hr]

theorem noComma_of_no_content (h : ¬ HasContent items) : NoComma items := by
  intro t hm hk
  exact h ⟨_, hm, fun hr => hk.not_isComment (remark_iff.1 hr)⟩

theorem expressionList_of_no_content (h : ¬ HasContent items) :
    expressionList items = .ok (.node .expressionList items) := by
  have hs := splitCommas_of_no_comma (noComma_iff.1 (noComma_of_no_content h))
  rw [expressionList_eq, hs, hasContent_eq_false_iff.2 h]
  rfl

/-- The longest leading run of declarations and comments stays outside the statements. -/
theorem Arranged.of_leading (items : List Tree) :
    Arranged .body items (items.takeWhile Tree.isLeading ++
      [.node .statements (items.dropWhile Tree.isLeading)]) := by
  have hl : ∀ item ∈ items.takeWhile Tree.isLeading, Leading item :=
    fun item hm => leading_iff.2 (List.mem_takeWhile_imp hm)
  have hs : ∀ item, (items.dropWhile Tree.isLeading).head? = some item → ¬ Leading item := by
    intro item hm
    have hd := List.head?_dropWhile_not Tree.isLeading items
    rw [hm] at hd
    rw [leading_iff, hd]
    exact Bool.false_ne_true
  have hb := Arranged.body hl hs
  rwa [List.takeWhile_append_dropWhile] at hb

/-- The layouts of runs compute the arrangements. -/
theorem arranged_iff : Arranged layout items children ↔ layout.arrange items = .ok children := by
  constructor
  · intro h
    cases h with
    | spliced | grouped => rfl
    | expression he => rw [isExpression_iff.1 he, Layout.arrange]
    | noArguments hc => rw [Layout.arrange, expressionList_of_no_content hc]
    | arguments ha => rw [Layout.arrange, ha.expressionList]
    | noValue hc =>
      rw [Layout.arrange, hasContent_eq_false_iff.2 hc]
      rfl
    | value hc he => rw [Layout.arrange, if_pos (hasContent_iff.2 hc), isExpression_iff.1 he]
    | @body locals statements hl hs =>
      have hl' : ∀ item ∈ locals, item.isLeading := fun item hm => leading_iff.1 (hl item hm)
      have hs' : ∀ item, statements.head? = some item → ¬ item.isLeading :=
        fun item hm => mt leading_iff.2 (hs item hm)
      rw [Layout.arrange, takeWhile_append_of_head hl' hs', dropWhile_append_of_head hl' hs']
  · intro h
    cases layout with
    | spliced => cases h; exact .spliced
    | grouped => cases h; exact .grouped
    | expression => cases h; exact .expression (isExpression_iff.2 rfl)
    | arguments =>
      obtain ⟨tree, hr, rfl⟩ := Layout.arrange_arguments_eq_ok h
      exact .of_expressionList hr
    | value =>
      cases h
      split
      · next hc => exact .value (hasContent_iff.1 hc) (isExpression_iff.2 rfl)
      · next hc => exact .noValue fun h => hc (hasContent_iff.2 h)
    | body =>
      cases h
      exact .of_leading items

theorem argumentsOf_eq_error (h : argumentsOf chunk chunks = .error e) :
    ∃ comma next, (comma, next) ∈ chunks ∧ e = .missingArgument comma := by
  induction chunks generalizing chunk with
  | nil => cases h
  | cons head chunks ih =>
    obtain ⟨comma, next⟩ := head
    rw [argumentsOf] at h
    split at h
    · cases h
      exact ⟨comma, next, List.mem_cons_self .., rfl⟩
    split at h
    · next hr =>
      cases h
      obtain ⟨comma', next', hm, he⟩ := ih hr
      exact ⟨comma', next', List.mem_cons_of_mem _ hm, he⟩
    · cases h

theorem Layout.arrange_eq_error {layout : Layout} (h : layout.arrange items = .error e) :
    layout = .arguments ∧
      ∃ comma, .leaf comma ∈ items ∧ comma.isSymbol ',' ∧ e = .missingArgument comma := by
  cases layout with
  | arguments =>
    rw [arrange, expressionList_eq] at h
    split at h
    · next e' he =>
      cases h
      split at he
      · cases he
      split at he
      · next ha =>
        cases he
        obtain ⟨comma, next, hm, rfl⟩ := argumentsOf_eq_error ha
        exact ⟨rfl, comma, mem_of_splitCommas hm, ((splitCommas_commas items).2 _ hm).1, rfl⟩
      · cases he
    · cases h
  | spliced | grouped | expression | value | body => cases h

end Jack
