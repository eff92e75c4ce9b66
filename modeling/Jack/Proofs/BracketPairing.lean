import Jack.Proofs.Nesting
import Jack.Proofs.Postcondition
import Jack.Proofs.SessionConservation

namespace Jack

/-- Children that close the brackets on a stack, and end in a semicolon when they have to. -/
inductive Fits : List Char → Bool → List Tree → Prop where
  | nil : Fits [] false []
  | terminator (ht : t.isSymbol ';') : Fits [] true [.leaf t]
  | inner (ht : t.isInner) (hr : Fits stack terminated trees) :
      Fits stack terminated (.leaf t :: trees)
  | node (hp : (Tree.node construct children).Paired) (hr : Fits stack terminated trees) :
      Fits stack terminated (.node construct children :: trees)
  | opening (hp : (opening, closing) ∈ bracketPairs) (ht : t.isSymbol opening)
      (hr : Fits (closing :: stack) terminated trees) : Fits stack terminated (.leaf t :: trees)
  | closing (hb : isBracket closing) (ht : t.isSymbol closing)
      (hr : Fits stack terminated trees) : Fits (closing :: stack) terminated (.leaf t :: trees)

theorem isBracket_of_pair (hp : (opening, closing) ∈ bracketPairs) : isBracket opening :=
  List.any_eq_true.2 ⟨_, hp, by simp⟩

theorem Token.isInner_of_comment {t : Token} (h : t.isComment) : t.isInner := by
  rw [Token.isComment_iff] at h
  obtain ⟨text, h⟩ := h
  simp [isInner, symbol?, h]

theorem Token.not_isSymbol_of_inner {t : Token} (h : t.isInner) : ¬ t.isSymbol ';' := by
  intro ht
  rw [Token.isSymbol, beq_iff_eq] at ht
  simp [isInner, ht] at h

theorem Token.not_isSymbol_of_ne {t : Token} (ht : t.isSymbol char) (hne : char ≠ other) :
    ¬ t.isSymbol other := by
  rw [Token.isSymbol_iff] at ht ⊢
  simpa [ht] using hne

theorem Token.not_isSymbol_of_bracket {t : Token} (hb : isBracket char) (ht : t.isSymbol char) :
    ¬ t.isSymbol ';' := by
  apply not_isSymbol_of_ne ht
  rintro rfl
  exact absurd hb (by decide)

namespace Fits

theorem closes (h : Fits stack terminated trees) :
    Closes stack (brackets (directTokens trees)) := by
  induction h with
  | nil => exact .nil
  | terminator ht =>
    rw [directTokens_leaf, brackets_cons_of_symbol ht, if_neg (by decide)]
    exact .nil
  | inner ht _ ih => rwa [directTokens_leaf, brackets_cons_of_inner ht]
  | node _ _ ih => exact ih
  | opening hp ht _ ih =>
    rw [directTokens_leaf, brackets_cons_of_symbol ht, if_pos (isBracket_of_pair hp)]
    exact .opening hp ih
  | closing hb ht _ ih =>
    rw [directTokens_leaf, brackets_cons_of_symbol ht, if_pos hb]
    exact .closing ih

theorem terminators (h : Fits stack terminated trees) :
    (directTokens trees).countP (·.isSymbol ';') = if terminated then 1 else 0 := by
  have hs {t : Token} {trees : List Tree} (ht : ¬ t.isSymbol ';') :
      (directTokens (.leaf t :: trees)).countP (·.isSymbol ';') =
        (directTokens trees).countP (·.isSymbol ';') := List.countP_cons_of_neg ht
  induction h with
  | nil => rfl
  | terminator ht => simp [directTokens, Tree.token?, ht]
  | inner ht _ ih => rw [hs (Token.not_isSymbol_of_inner ht), ih]
  | node _ _ ih => exact ih
  | opening hp ht _ ih => rw [hs (Token.not_isSymbol_of_bracket (isBracket_of_pair hp) ht), ih]
  | closing hb ht _ ih => rw [hs (Token.not_isSymbol_of_bracket hb ht), ih]

theorem last (h : Fits stack true trees) :
    ∃ front t, trees = front ++ [.leaf t] ∧ t.isSymbol ';' := by
  generalize ht : true = terminated at h
  induction h with
  | nil => cases ht
  | terminator hs => exact ⟨[], _, rfl, hs⟩
  | inner _ _ ih | node _ _ ih | opening _ _ _ ih | closing _ _ _ ih =>
    obtain ⟨front, t, rfl, hs⟩ := ih ht
    exact ⟨_ :: front, t, rfl, hs⟩

theorem paired (h : Fits stack terminated trees) : ∀ tree ∈ trees, tree.Paired := by
  induction h with
  | nil => simp
  | terminator => simpa using Tree.paired_leaf _
  | inner _ _ ih | opening _ _ _ ih | closing _ _ _ ih =>
    exact List.forall_mem_cons.2 ⟨Tree.paired_leaf _, ih⟩
  | node hp _ ih => exact List.forall_mem_cons.2 ⟨hp, ih⟩

theorem paired_node (h : Fits [] construct.isTerminated children) :
    (Tree.node construct children).Paired := by
  refine Tree.paired_node_iff.2 ⟨⟨balanced_iff_closes.2 h.closes, h.terminators, ?_⟩, h.paired⟩
  intro hc
  rw [hc] at h
  exact h.last

theorem append (h : Fits stack false first) (h' : Fits stack' terminated second) :
    Fits (stack ++ stack') terminated (first ++ second) := by
  generalize hf : false = unfinished at h
  induction h with
  | nil => exact h'
  | terminator => cases hf
  | inner ht _ ih => exact .inner ht (ih hf)
  | node hp _ ih => exact .node hp (ih hf)
  | opening hp ht _ ih => exact .opening hp ht (ih hf)
  | closing hb ht _ ih => exact .closing hb ht (ih hf)

theorem comments {ts : List Token} (hc : ∀ t ∈ ts, t.isComment)
    (h : Fits stack terminated trees) : Fits stack terminated (leaves ts ++ trees) := by
  induction ts with
  | nil => exact h
  | cons t ts ih =>
    obtain ⟨ht, hc⟩ := List.forall_mem_cons.1 hc
    exact .inner (Token.isInner_of_comment ht) (ih hc)

theorem single (h : Fits [] construct.isTerminated children) :
    Fits [] false [.node construct children] := .node h.paired_node .nil

theorem operands (h : Fits stack terminated items) :
    Fits stack terminated (items.map Tree.asOperand) := by
  have hs {t : Token} {char : Char} (ht : t.isSymbol char) : (Tree.leaf t).asOperand = .leaf t := by
    rw [Token.isSymbol, beq_iff_eq] at ht
    simp [Tree.asOperand, ht]
  induction h with
  | nil => exact .nil
  | terminator ht =>
    rw [List.map_singleton, hs ht]
    exact .terminator ht
  | inner ht _ ih =>
    rw [List.map_cons, Tree.asOperand]
    split
    · exact .node (Fits.paired_node (.inner ht .nil)) ih
    · exact .inner ht ih
  | node hp _ ih => exact .node hp ih
  | opening hp ht _ ih =>
    rw [List.map_cons, hs ht]
    exact .opening hp ht ih
  | closing hb ht _ ih =>
    rw [List.map_cons, hs ht]
    exact .closing hb ht ih

theorem expression (h : Fits [] false items) : Fits [] false [expressionOf items] :=
  .single h.operands

end Fits

/-- A run of items. A bare subscript is more than one tree, so that the items are kept apart, and
a comma is an item of its own. -/
inductive ItemRun : List Tree → Prop where
  | nil : ItemRun []
  | comma (hk : comma.isSymbol ',') (hr : ItemRun items) : ItemRun (.leaf comma :: items)
  | item (hf : Fits [] false trees) (hn : ∀ tree ∈ trees, ¬ tree.isSymbol ',')
      (hr : ItemRun items) : ItemRun (trees ++ items)

theorem Token.isInner_of_comma {comma : Token} (h : comma.isSymbol ',') : comma.isInner := by
  rw [Token.isSymbol, beq_iff_eq] at h
  simp only [isInner, h]
  decide

namespace ItemRun

theorem fits (h : ItemRun items) : Fits [] false items := by
  induction h with
  | nil => exact .nil
  | comma hk _ ih => exact .inner (Token.isInner_of_comma hk) ih
  | item hf _ _ ih => exact hf.append ih

theorem chunks (h : ItemRun items) :
    Fits [] false (splitCommas items).1 ∧
      ∀ pair ∈ (splitCommas items).2, pair.1.isSymbol ',' ∧ Fits [] false pair.2 := by
  induction h with
  | nil => exact ⟨.nil, by simp [splitCommas]⟩
  | comma hk _ ih =>
    rw [splitCommas_comma hk]
    exact ⟨.nil, List.forall_mem_cons.2 ⟨⟨hk, ih.1⟩, ih.2⟩⟩
  | item hf hn _ ih =>
    rw [splitCommas_append hn]
    exact ⟨hf.append ih.1, ih.2⟩

end ItemRun

theorem Fits.argumentsOf (hf : Fits [] false chunk)
    (hs : ∀ pair ∈ chunks, pair.1.isSymbol ',' ∧ Fits [] false pair.2)
    (h : argumentsOf chunk chunks = .ok children) : Fits [] false children := by
  induction chunks generalizing chunk children with
  | nil =>
    cases h
    exact hf.expression
  | cons pair chunks ih =>
    obtain ⟨comma, next⟩ := pair
    obtain ⟨⟨hk, hn⟩, hs⟩ := List.forall_mem_cons.1 hs
    obtain ⟨-, -, rest, hr, rfl⟩ := argumentsOf_cons_eq_ok h
    exact hf.expression.append (.inner (Token.isInner_of_comma hk) (ih hn hs hr))

theorem ItemRun.expressionList (hi : ItemRun items) (h : expressionList items = .ok tree) :
    Fits [] false [tree] := by
  obtain ⟨-, -, rfl⟩ | ⟨-, children, hr, rfl⟩ := expressionList_eq_ok h
  · exact .single hi.fits
  · exact .single (Fits.argumentsOf hi.chunks.1 hi.chunks.2 hr)

theorem Fits.body (h : Fits [] false items) :
    Fits [] false (items.takeWhile Tree.isLeading ++
      [.node .statements (items.dropWhile Tree.isLeading)]) := by
  induction items with
  | nil => exact .single .nil
  | cons item items ih =>
    by_cases hl : item.isLeading
    · rw [List.takeWhile_cons_of_pos hl, List.dropWhile_cons_of_pos hl]
      cases h with
      | inner ht hr => exact .inner ht (ih hr)
      | node hp hr => exact .node hp (ih hr)
      | opening hp ht hr => exact absurd hl (Token.not_isComment_of_isSymbol ht)
    · rw [List.takeWhile_cons_of_neg hl, List.dropWhile_cons_of_neg hl]
      exact .single h

/-- Layouts that make no declaration or statement of their own. -/
def Layout.isInner : Layout → Bool
  | .grouped construct => !construct.isTerminated
  | _ => true

theorem Layout.arrange_fits {layout : Layout} (hl : layout.isInner) (hi : ItemRun items)
    (h : layout.arrange items = .ok arranged) : Fits [] false arranged := by
  cases layout with
  | spliced =>
    cases h
    exact hi.fits
  | grouped construct =>
    cases h
    rw [isInner, Bool.not_eq_true'] at hl
    apply Fits.single
    rw [hl]
    exact hi.fits
  | expression =>
    cases h
    exact hi.fits.expression
  | arguments =>
    obtain ⟨tree, hr, rfl⟩ := arrange_arguments_eq_ok h
    exact hi.expressionList hr
  | value =>
    cases h
    split
    · exact hi.fits.expression
    · exact hi.fits
  | body =>
    cases h
    exact hi.fits.body

def Expected.isInner : Expected → Bool
  | .symbol char => !isBracket char && char != ';'
  | _ => true

theorem Terminal.isInner (he : expected.isInner) (ht : Terminal expected t) : t.isInner := by
  cases ht with
  | symbol => simpa [Expected.isInner, Token.isInner, Token.symbol?] using he
  | keyword | identifier | builtInType | className => rfl

/-- Productions that close the brackets on a stack, and end in a semicolon when they have to. -/
inductive Production.Pairs : List Char → Bool → Production → Prop where
  | done : Pairs [] false .done
  | terminator : Pairs [] true (.token (.symbol ';') .done)
  | inner (he : expected.isInner) (hn : Pairs stack terminated next) :
      Pairs stack terminated (.token expected next)
  | opening (hp : (opening, closing) ∈ bracketPairs)
      (hn : Pairs (closing :: stack) terminated next) :
      Pairs stack terminated (.token (.symbol opening) next)
  | run (hb : isBracket closer) (hl : layout.isInner) (hn : Pairs stack terminated next) :
      Pairs (closer :: stack) terminated (.run closer layout next)
  | lastRun (hl : layout.isInner) : Pairs [] true (.run ';' layout .done)
  | optional (hp : Pairs [] false part) (hn : Pairs stack terminated next) :
      Pairs stack terminated (.optional sign part next)
  | nested (hp : Pairs [] construct.isTerminated part) (hn : Pairs stack terminated next) :
      Pairs stack terminated (.nested construct part next)

def Rule.awaited : Rule → List Char
  | .parenthesizedTerm => [')']
  | .subscript => [']']
  | _ => []

def Rule.isTerminated (rule : Rule) : Bool := rule.construct?.any Construct.isTerminated

namespace Production.Pairs

variable {stack : List Char} {terminated : Bool} {next : Production}

theorem parenthesized (hl : layout.isInner) (h : Pairs stack terminated next) :
    Pairs stack terminated (.parenthesized layout next) :=
  .opening (by decide) (.run (by decide) hl h)

theorem braced (hl : layout.isInner) (h : Pairs stack terminated next) :
    Pairs stack terminated (.braced layout next) :=
  .opening (by decide) (.run (by decide) hl h)

theorem block (h : Pairs stack terminated next) : Pairs stack terminated (.block next) :=
  braced rfl h

theorem subscript : Pairs [] false (.subscript .done) :=
  .opening (by decide) (.run (by decide) rfl .done)

theorem call (h : Pairs stack terminated next) : Pairs stack terminated (.call next) :=
  .optional (.inner rfl (.inner rfl .done)) (parenthesized rfl h)

end Production.Pairs

/-- Each construct closes its own brackets, and only the declarations and statements that end in a
semicolon read one. -/
theorem Rule.pairs (rule : Rule) : rule.production.Pairs rule.awaited rule.isTerminated := by
  cases rule with
  | class_ => exact .inner rfl (.braced rfl .done)
  | classVarDec | varDec | return_ => exact .lastRun rfl
  | subroutineDec =>
    exact .inner rfl (.inner rfl (.parenthesized rfl (.nested (.braced rfl .done) .done)))
  | let_ => exact .inner rfl (.optional .subscript (.inner rfl (.lastRun rfl)))
  | if_ => exact .parenthesized rfl (.block (.optional (.inner rfl (.block .done)) .done))
  | while_ => exact .parenthesized rfl (.block .done)
  | do_ => exact .inner rfl (.call .terminator)
  | parenthesizedTerm | subscript => exact .run rfl rfl .done
  | callTerm => exact .call .done
  | subscriptTerm => exact .subscript

theorem Rule.Starts.fits {rule : Rule} (hs : rule.Starts head next)
    (h : Fits rule.awaited terminated trees) : Fits [] terminated (.leaf head :: trees) := by
  have hw {word : Keyword} (hh : Terminal (.keyword word) head) : head.isInner := hh.isInner rfl
  cases rule with
  | class_ | varDec | let_ | if_ | while_ | do_ | return_ => exact .inner (hw hs) h
  | classVarDec => exact .inner (hs.elim hw hw) h
  | subroutineDec =>
    rcases hs with hs | hs | hs <;> exact .inner (hw hs) h
  | callTerm | subscriptTerm => exact .inner (hs.1.isInner rfl) h
  | parenthesizedTerm => exact .opening (by decide) (terminal_iff.1 hs) h
  | subscript => exact .opening (by decide) (terminal_iff.1 hs) h

theorem Token.inner_of_plain (h : Plain head next) : head.isInner := by
  cases h with
  | keyword | identifier | integer | string | comment => rfl
  | @symbol char line _ h =>
    simp only [List.mem_cons, List.not_mem_nil, or_false, not_or] at h
    simp [isInner, symbol?, isBracket, bracketPairs, h]

namespace Parser

variable {readItems : Char → Parser (List Tree)} {next : Production}
  {property property' : List Tree → Prop}

theorem token_returns (hn : Returns property (next.read readItems))
    (h : ∀ t more, expected.accepts t → property more → property' (.leaf t :: more))
    (hc : ∀ (ts : List Token) more, (∀ t ∈ ts, t.isComment) → property' more →
      property' (leaves ts ++ more)) :
    Returns property' ((Production.token expected next).read readItems) := by
  refine comments_returns.bind ?_
  rintro _ ⟨ts, rfl, hts⟩
  refine (expect_returns expected).bind ?_
  rintro _ ⟨t, rfl, ht⟩
  refine hn.bind fun more hm => ?_
  exact .pure (hc ts _ hts (h t more ht hm))

theorem run_returns (hi : ∀ closer, Returns ItemRun (readItems closer)) {layout : Layout}
    (hl : layout.isInner) (hn : Returns property (next.read readItems))
    (h : ∀ arranged t more, Fits [] false arranged → t.isSymbol closer → property more →
      property' (arranged ++ .leaf t :: more)) :
    Returns property' ((Production.run closer layout next).read readItems) := by
  refine (hi closer).bind fun items hit => ?_
  have ha : Returns (Fits [] false) (ofExcept (layout.arrange items)) :=
    .ofExcept fun arranged ha => Layout.arrange_fits hl hit ha
  refine ha.bind fun arranged ha => ?_
  refine (expect_returns (.symbol closer)).bind ?_
  rintro _ ⟨t, rfl, ht⟩
  refine hn.bind fun more hm => ?_
  exact .pure (h arranged t more ha ht hm)

theorem done_returns : Returns (· = []) (Production.done.read readItems) := .pure rfl

theorem production_fits (hi : ∀ closer, Returns ItemRun (readItems closer))
    {production : Production} (h : production.Pairs stack terminated) :
    Returns (Fits stack terminated) (production.read readItems) := by
  induction h with
  | done => exact .pure .nil
  | terminator =>
    refine token_returns done_returns ?_ fun _ _ => .comments
    rintro t _ ht rfl
    exact .terminator ht
  | inner he _ ih =>
    exact token_returns ih (fun t more ht => .inner ((terminal_iff.2 ht).isInner he))
      fun _ _ => .comments
  | opening hp _ ih =>
    exact token_returns ih (fun t more ht => .opening hp ht) fun _ _ => .comments
  | run hb hl _ ih =>
    exact run_returns hi hl ih fun arranged t more ha ht hm => ha.append (.closing hb ht hm)
  | lastRun hl =>
    refine run_returns hi hl done_returns ?_
    rintro arranged t _ ha ht rfl
    exact ha.append (.terminator ht)
  | optional _ _ ihp ihn =>
    refine (ihp.optionally .nil).bind fun front hf => ?_
    refine ihn.bind fun more hm => ?_
    exact .pure (hf.append hm)
  | nested _ _ ihp ihn =>
    refine comments_returns.bind ?_
    rintro _ ⟨ts, rfl, hc⟩
    refine ihp.bind fun children hch => ?_
    refine ihn.bind fun more hm => ?_
    exact .pure (.comments hc (.node hch.paired_node hm))

theorem subscript_returns :
    Returns (fun trees => ∀ tree ∈ trees, ¬ tree.isSymbol ',')
      (Rule.subscript.production.read readItems) := by
  have hi (closer : Char) : Returns (fun _ => True) (readItems closer) :=
    fun _ _ _ _ => trivial
  refine (hi ']').bind fun items _ => ?_
  refine (Returns.pure rfl : Returns (· = [expressionOf items]) _).bind ?_
  rintro _ rfl
  refine (expect_returns (.symbol ']')).bind ?_
  rintro _ ⟨t, rfl, ht⟩
  refine done_returns.bind ?_
  rintro _ rfl
  have hl : ¬ (Tree.leaf t).isSymbol ',' := Token.not_isSymbol_of_ne ht (by decide)
  exact .pure (List.forall_mem_cons.2 ⟨Bool.false_ne_true, List.forall_mem_singleton.2 hl⟩)

theorem item_run (hi : ∀ closer, Returns ItemRun (readItems closer))
    (h : item readItems head rest cursor = .ok (some trees) after) (hr : ItemRun more) :
    ItemRun (trees ++ more) := by
  cases hc : Choice.of head (significant? rest) with
  | closer =>
    rw [item_closer hc] at h
    cases h
  | forbidden =>
    rw [item_forbidden hc] at h
    cases h
  | terminal =>
    rw [item_terminal hc] at h
    cases h
    by_cases hk : head.isSymbol ','
    · exact .comma hk hr
    · have hh := Token.inner_of_plain (Choice.plain_of_terminal hc)
      exact .item (.inner hh .nil) (List.forall_mem_singleton.2 hk) hr
  | opens rule =>
    rw [item_opens hc] at h
    obtain ⟨children, _, hch, h⟩ := bind_eq_ok h
    cases h
    have hs := Choice.opens_iff.1 hc
    have hf := hs.fits (production_fits hi rule.pairs _ _ _ hch)
    cases hk : rule.construct? with
    | some construct =>
      rw [Rule.isTerminated, hk, Option.any_some] at hf
      rw [Rule.build, hk]
      exact .item (.single hf) (List.forall_mem_singleton.2 Bool.false_ne_true) hr
    | none =>
      obtain rfl : rule = .subscript := by cases rule <;> first | rfl | cases hk
      refine .item hf (List.forall_mem_cons.2 ⟨?_, subscript_returns _ _ _ hch⟩) hr
      exact Token.not_isSymbol_of_ne (terminal_iff.1 hs) (by decide)

theorem items_run (limit : Nat) (closer : Char) : Returns ItemRun (items limit closer) := by
  induction limit generalizing closer with
  | zero => exact .fail
  | succ limit ih =>
    rintro ⟨_ | ⟨head, rest⟩, trace⟩ trees after h
    · cases h
    by_cases hh : head.isSymbol closer
    · rw [items_closer limit hh] at h
      cases h
      exact .nil
    · rw [items_cons limit hh] at h
      obtain ⟨found, mid, hf, h⟩ := bind_eq_ok h
      cases found with
      | none => cases h
      | some trees =>
        obtain ⟨more, _, hm, h⟩ := bind_eq_ok h
        cases h
        exact item_run ih hf (ih closer _ _ _ hm)

theorem classTree_paired (h : classTree cursor = .ok tree after) :
    ∃ children, tree = .node .class_ children ∧ tree.Paired := by
  rw [classTree_apply] at h
  obtain ⟨children, mid, hc, h⟩ := bind_eq_ok h
  obtain ⟨_, _, ha, h⟩ := bind_eq_ok h
  obtain ⟨comments, rfl, hcs, -⟩ := comments_eq_ok ha
  cases h
  have hp : Production.wholeClass.Pairs [] false := .inner rfl (Rule.class_.pairs)
  have hf : Fits [] Construct.class_.isTerminated (children ++ leaves comments) := by
    rw [← List.append_nil (leaves comments)]
    exact (production_fits (items_run _) hp _ _ _ hc).append (.comments hcs .nil)
  exact ⟨_, rfl, hf.paired_node⟩

end Parser

/-- In the tree of an accepted token list the brackets among the direct children of each element
are balanced, so that those of the whole list are. Each semicolon is the last direct child of a
declaration or a statement, which has no other one. -/
theorem brackets_and_terminators_paired (h : (parse ts).result = .ok tree) :
    tree.Paired ∧ Balanced (brackets ts) ∧
      ∀ before t after, ts = before ++ t :: after → t.isSymbol ';' →
        ∃ construct children start,
          Occurs (.node construct (children ++ [.leaf t])) start after tree ∧
            construct.isTerminated ∧ before = start ++ forestTokens children := by
  obtain rfl := tokens_of_parse h
  obtain ⟨trace, hc⟩ := parse_eq_ok_iff.1 h
  obtain ⟨children, rfl, hp⟩ := Parser.classTree_paired hc
  exact ⟨hp, hp.balanced, fun before t after => hp.terminator⟩

/-- A class with one function, which returns `a[1]`. -/
def elementClass : List Token :=
  [⟨.keyword .class_, 1⟩, ⟨.identifier "Store", 1⟩, ⟨.symbol '\x7b', 1⟩,
   ⟨.keyword .function, 2⟩, ⟨.keyword .int, 2⟩, ⟨.identifier "second", 2⟩, ⟨.symbol '(', 2⟩,
   ⟨.symbol ')', 2⟩, ⟨.symbol '\x7b', 2⟩,
   ⟨.keyword .return_, 3⟩, ⟨.identifier "a", 3⟩, ⟨.symbol '[', 3⟩, ⟨.integer 1, 3⟩,
   ⟨.symbol ']', 3⟩, ⟨.symbol ';', 3⟩,
   ⟨.symbol '\x7d', 4⟩, ⟨.symbol '\x7d', 4⟩]

theorem elementClass_paired :
    ∃ tree, (parse elementClass).result = .ok tree ∧ tree.Paired ∧
      Balanced ['\x7b', '(', ')', '\x7b', '[', ']', '\x7d', '\x7d'] ∧
      ∃ construct children start,
        Occurs (.node construct (children ++ [.leaf ⟨.symbol ';', 3⟩])) start
          (elementClass.drop 15) tree ∧
        construct.isTerminated ∧ elementClass.take 14 = start ++ forestTokens children := by
  have h : (parse elementClass).result = .ok _ := rfl
  obtain ⟨hp, hb, hs⟩ := brackets_and_terminators_paired h
  exact ⟨_, rfl, hp, hb, hs _ _ _ rfl rfl⟩

end Jack
