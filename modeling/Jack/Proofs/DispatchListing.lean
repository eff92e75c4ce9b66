import Jack.Proofs.Conservation
import Jack.Proofs.Recognition

namespace Jack

/-- How a term is listed: one that starts with a parenthesis, or with a name that is followed by the
arguments or the qualifier of a call or by a subscript. -/
def termRule? : List Token → Option Rule
  | [] => none
  | head :: rest =>
    if head.isSymbol '(' then some .parenthesizedTerm
    else if head.isIdentifier then
      (Parser.significant? rest).bind fun t =>
        if t.isSymbol '(' || t.isSymbol '.' then some .callTerm
        else if t.isSymbol '[' then some .subscriptTerm
        else none
    else none

def Construct.rule? (tokens : List Token) : Construct → Option Rule
  | .class_ => some .class_
  | .classVarDec => some .classVarDec
  | .subroutineDec => some .subroutineDec
  | .varDec => some .varDec
  | .letStatement => some .let_
  | .ifStatement => some .if_
  | .whileStatement => some .while_
  | .doStatement => some .do_
  | .returnStatement => some .return_
  | .term => termRule? tokens
  | .parameterList | .subroutineBody | .statements | .expression | .expressionList => none

/-- The record of a node, at the line of its first token. -/
def Construct.heading (tokens : List Token) (construct : Construct) : List Dispatch :=
  match construct.rule? tokens, tokens.head? with
  | some rule, some first => [.opened rule first.line]
  | _, _ => []

/-- Whether an opening bracket among the children of a construct is a subscript of its own. -/
def Construct.hasBareSubscripts (construct : Construct) : Bool :=
  construct != .term && construct != .letStatement

mutual

/-- The records of a tree, those of a node before those of its children; `bare` says whether the
tree stands where an opening bracket is a subscript of its own. -/
def Tree.dispatches (bare : Bool) : Tree → List Dispatch
  | .leaf t => if bare && t.isSymbol '[' then [.opened .subscript t.line] else []
  | .node construct children =>
    construct.heading (forestTokens children) ++
      forestDispatches construct.hasBareSubscripts children

def forestDispatches (bare : Bool) : List Tree → List Dispatch
  | [] => []
  | tree :: trees => tree.dispatches bare ++ forestDispatches bare trees

end

def Tree.innerDispatches : Tree → List Dispatch
  | .leaf _ => []
  | .node construct children => forestDispatches construct.hasBareSubscripts children

variable {bare : Bool}

section Trees

@[simp] theorem forestDispatches_nil (bare : Bool) : forestDispatches bare [] = [] := rfl

@[simp] theorem forestDispatches_cons (bare : Bool) (tree : Tree) (trees : List Tree) :
    forestDispatches bare (tree :: trees) = tree.dispatches bare ++ forestDispatches bare trees :=
  rfl

@[simp] theorem forestDispatches_append (bare : Bool) (first second : List Tree) :
    forestDispatches bare (first ++ second) =
      forestDispatches bare first ++ forestDispatches bare second := by
  induction first with
  | nil => rfl
  | cons tree first ih => simp only [List.cons_append, forestDispatches_cons, ih, List.append_assoc]

theorem Tree.dispatches_leaf (h : bare → ¬ t.isSymbol '[') :
    (Tree.leaf t).dispatches bare = [] := by
  rw [dispatches, if_neg]
  simpa using h

theorem forestDispatches_leaves (h : ∀ t ∈ word, bare → ¬ t.isSymbol '[') :
    forestDispatches bare (leaves word) = [] := by
  induction word with
  | nil => rfl
  | cons t word ih =>
    rw [List.forall_mem_cons] at h
    rw [leaves_cons, forestDispatches_cons, Tree.dispatches_leaf h.1, ih h.2, List.append_nil]

theorem Token.not_isSymbol_of_comment {t : Token} (h : t.isComment) : ¬ t.isSymbol char :=
  fun hs => not_isComment_of_isSymbol hs h

theorem Tree.dispatches_asOperand (tree : Tree) :
    tree.asOperand.dispatches true = tree.dispatches true := by
  cases tree with
  | node => rfl
  | leaf t =>
    rw [asOperand]
    split
    · next h =>
      rw [Bool.and_eq_true, Option.isNone_iff_eq_none] at h
      have hs (char : Char) : ¬ t.isSymbol char := by
        rw [Token.isSymbol, h.1]
        exact Bool.false_ne_true
      have hterm : Construct.term.rule? [t] = none := by
        rw [Construct.rule?, termRule?, if_neg (hs '(')]
        exact ite_self none
      have hheading : Construct.term.heading [t] = [] := by rw [Construct.heading, hterm]
      rw [dispatches_leaf fun _ => hs '[', dispatches, forestTokens_cons, tokens_leaf,
        forestTokens_nil, List.append_nil, hheading, forestDispatches_cons,
        dispatches_leaf fun _ => hs '[']
      rfl
    · rfl

theorem dispatches_expressionOf (items : List Tree) :
    (expressionOf items).dispatches bare = forestDispatches true items := by
  change forestDispatches true (items.map Tree.asOperand) = _
  induction items with
  | nil => rfl
  | cons item items ih =>
    rw [List.map_cons, forestDispatches_cons, item.dispatches_asOperand, ih, forestDispatches_cons]

theorem forestDispatches_argumentsOf (h : argumentsOf chunk chunks = .ok children) :
    forestDispatches true children = forestDispatches true (chunk ++ joinCommas chunks) := by
  induction chunks generalizing chunk children with
  | nil =>
    cases h
    simp [dispatches_expressionOf]
  | cons head chunks ih =>
    obtain ⟨comma, next⟩ := head
    obtain ⟨-, -, rest, hr, rfl⟩ := argumentsOf_cons_eq_ok h
    simp [ih hr, dispatches_expressionOf]

theorem dispatches_expressionList (h : expressionList items = .ok tree) :
    tree.dispatches bare = forestDispatches true items := by
  obtain ⟨-, -, rfl⟩ | ⟨-, children, hr, rfl⟩ := expressionList_eq_ok h
  · rfl
  · change forestDispatches true children = _
    rw [forestDispatches_argumentsOf hr, splitCommas_join]

/-- Whether the records of a run are the same before and after it is arranged, at a place where an
opening bracket is a subscript of its own or is not. -/
def Layout.keepsDispatches (bare : Bool) : Layout → Bool
  | .expression | .arguments => true
  | .grouped construct => construct == .parameterList || construct == .statements
  | .spliced | .value | .body => bare

theorem Layout.dispatches_arrange {layout : Layout} (hk : layout.keepsDispatches bare)
    (h : layout.arrange items = .ok arranged) :
    forestDispatches bare arranged = forestDispatches true items := by
  cases layout with
  | arguments =>
    obtain ⟨tree, hr, rfl⟩ := arrange_arguments_eq_ok h
    simp [dispatches_expressionList hr]
  | expression =>
    cases h
    simp [dispatches_expressionOf]
  | grouped construct =>
    cases h
    simp only [keepsDispatches, Bool.or_eq_true, beq_iff_eq] at hk
    obtain rfl | rfl := hk
    · exact List.append_nil _
    · exact List.append_nil _
  | spliced =>
    cases h
    rw [show bare = true from hk]
  | value =>
    cases h
    rw [show bare = true from hk]
    split
    · simp [dispatches_expressionOf]
    · rfl
  | body =>
    cases h
    have hs : forestDispatches true [.node .statements (items.dropWhile Tree.isLeading)] =
        forestDispatches true (items.dropWhile Tree.isLeading) := List.append_nil _
    rw [show bare = true from hk, forestDispatches_append, hs, ← forestDispatches_append,
      List.takeWhile_append_dropWhile]

end Trees

/-- Whether the records of a production are those of the items in it: no opening bracket is a token
of a place where it is a subscript of its own. -/
def Production.keepsDispatches (bare : Bool) : Production → Bool
  | .done => true
  | .token expected next => !(bare && expected == .symbol '[') && next.keepsDispatches bare
  | .run closer layout next =>
    layout.keepsDispatches bare && closer != '[' && next.keepsDispatches bare
  | .optional _ part next => part.keepsDispatches bare && next.keepsDispatches bare
  | .nested construct part next =>
    construct == .subroutineBody && part.keepsDispatches true && next.keepsDispatches bare

def Rule.hasBareSubscripts (rule : Rule) : Bool := rule.construct?.all Construct.hasBareSubscripts

theorem Rule.keepsDispatches (rule : Rule) :
    rule.production.keepsDispatches rule.hasBareSubscripts := by
  cases rule <;> rfl

theorem Expected.eq_of_accepts {expected : Expected} (h : expected.accepts t)
    (hs : t.isSymbol char) : expected = .symbol char := by
  rw [Token.isSymbol_iff] at hs
  cases expected <;>
    simp_all [accepts, Token.isSymbol_iff, Token.isKeyword_iff, Token.isIdentifier_iff,
      Token.keyword?]

theorem termRule?_name (hi : head.isIdentifier) (hs : Parser.significant? rest = some t) :
    termRule? (head :: rest) =
      if t.isSymbol '(' || t.isSymbol '.' then some .callTerm
      else if t.isSymbol '[' then some .subscriptTerm
      else none := by
  obtain ⟨name, hn⟩ := Token.isIdentifier_iff.1 hi
  have hp : ¬ head.isSymbol '(' := by simp [Token.isSymbol_iff, hn]
  rw [termRule?, if_neg hp, if_pos hi, hs, Option.bind_some]

theorem Rule.rule?_of_starts {rule : Rule}
    (hs : rule.Starts head (Parser.significant? (word ++ left)))
    (hy : rule.production.Yields word trees left) (hc : rule.construct? = some construct) :
    construct.rule? (head :: word) = some rule := by
  cases rule with
  | parenthesizedTerm =>
    cases hc
    exact if_pos (terminal_iff.1 hs)
  | callTerm =>
    cases hc
    obtain ⟨qualifier, opening, run, _, _, _, hq, ho, -, -, rfl, -⟩ := hy.call_inv
    obtain ⟨t, ht, hn⟩ := hq.next ho
    have hp : t.isSymbol '(' || t.isSymbol '.' :=
      Bool.or_eq_true_iff.2 (ht.imp terminal_iff.1 terminal_iff.1)
    exact (termRule?_name (terminal_iff.1 hs.1) (hn _)).trans (if_pos hp)
  | subscriptTerm =>
    cases hc
    obtain ⟨opening, run, _, ho, -, rfl, -⟩ := hy.subscript_inv
    obtain ⟨t, ht, hn⟩ := ho.next
    have hb := terminal_symbol_iff.1 ht
    exact (termRule?_name (terminal_iff.1 hs.1) (hn run)).trans (by simp [Token.isSymbol_iff, hb])
  | subscript => cases hc
  | class_ | classVarDec | subroutineDec | varDec | let_ | if_ | while_ | do_ | return_ =>
    cases hc
    rfl

theorem Rule.eq_subscript {rule : Rule} (hs : rule.Starts head next) (hh : head.isSymbol '[') :
    rule = .subscript := by
  have hc := Choice.opens_iff.2 hs
  rw [Token.isSymbol_iff] at hh
  simp only [Choice.of, hh] at hc
  cases hc
  rfl

theorem Rule.dispatches_build {rule : Rule}
    (hs : rule.Starts head (Parser.significant? (forestTokens trees ++ left)))
    (hy : rule.production.Yields (forestTokens trees) trees left) :
    forestDispatches true (rule.build head trees) =
      .opened rule head.line :: forestDispatches rule.hasBareSubscripts trees := by
  rw [build, hasBareSubscripts]
  cases hc : rule.construct? with
  | some construct =>
    have hheading : construct.heading (head :: forestTokens trees) = [.opened rule head.line] := by
      rw [Construct.heading, rule?_of_starts hs hy hc]
      rfl
    have hhead : (Tree.leaf head).dispatches construct.hasBareSubscripts = [] := by
      refine Tree.dispatches_leaf fun _ hh => ?_
      cases eq_subscript hs hh
      cases hc
    dsimp only
    rw [forestDispatches_cons, forestDispatches_nil, List.append_nil, Tree.dispatches,
      forestTokens_cons, Tree.tokens_leaf, List.singleton_append, hheading, forestDispatches_cons,
      hhead]
    rfl
  | none =>
    obtain rfl : rule = .subscript := by
      cases rule <;> first | rfl | cases hc
    have hh : head.isSymbol '[' := terminal_iff.1 hs
    dsimp only
    rw [forestDispatches_cons, Tree.dispatches, hh]
    rfl

namespace Parser

/-- A reader of runs of items whose records are those of the items. -/
structure ListsRuns (readItems : Char → Parser (List Tree)) : Prop where
  sound : ∀ closer, SoundItems (readItems closer) closer
  conserves : ∀ closer, (readItems closer).Conserves forestTokens []
  lists : ∀ closer cursor trees after, readItems closer cursor = .ok trees after →
    after.trace.toList = cursor.trace.toList ++ forestDispatches true trees

variable {readItems : Char → Parser (List Tree)}

theorem comments_trace (bare : Bool) (h : comments cursor = .ok trees after) :
    after.trace = cursor.trace ∧ forestDispatches bare trees = [] := by
  cases h
  refine ⟨rfl, forestDispatches_leaves fun t ht _ => ?_⟩
  exact Token.not_isSymbol_of_comment (List.mem_takeWhile_imp ht)

theorem expect_trace (h : expect expected cursor = .ok tree after) :
    after.trace = cursor.trace := by
  obtain ⟨_ | ⟨t, rest⟩, trace⟩ := cursor
  · cases h
  · rw [expect_cons] at h
    split at h
    · cases h
      rfl
    · cases h

theorem production_trace (hr : ListsRuns readItems) {production : Production}
    (hk : production.keepsDispatches bare)
    (h : production.read readItems cursor = .ok trees after) :
    after.trace.toList = cursor.trace.toList ++ forestDispatches bare trees := by
  induction production generalizing bare cursor trees after with
  | done =>
    cases h
    exact (List.append_nil _).symm
  | token expected next ih =>
    rw [Production.keepsDispatches, Bool.and_eq_true] at hk
    obtain ⟨before, _, hb, h⟩ := bind_eq_ok h
    obtain ⟨hbt, hbd⟩ := comments_trace bare hb
    obtain ⟨leaf, _, he, h⟩ := bind_eq_ok h
    obtain ⟨t, rfl, ht, -⟩ := expect_eq_ok he
    obtain ⟨more, _, hm, h⟩ := bind_eq_ok h
    cases h
    have hleaf : (Tree.leaf t).dispatches bare = [] := by
      refine Tree.dispatches_leaf fun hbare hs => ?_
      rw [hbare, Expected.eq_of_accepts ht hs] at hk
      exact Bool.false_ne_true hk.1
    rw [ih hk.2 hm, expect_trace he, hbt, forestDispatches_append, hbd, forestDispatches_cons,
      hleaf]
    rfl
  | run closer layout next ih =>
    simp only [Production.keepsDispatches, Bool.and_eq_true] at hk
    obtain ⟨items, _, hi, h⟩ := bind_eq_ok h
    obtain ⟨arranged, _, ha, h⟩ := bind_eq_ok h
    obtain ⟨harr, rfl⟩ := ofExcept_eq_ok ha
    obtain ⟨leaf, _, he, h⟩ := bind_eq_ok h
    obtain ⟨t, rfl, ht, -⟩ := expect_eq_ok he
    obtain ⟨more, _, hm, h⟩ := bind_eq_ok h
    cases h
    have hleaf : (Tree.leaf t).dispatches bare = [] := by
      refine Tree.dispatches_leaf fun _ hs => ?_
      cases Expected.eq_of_accepts ht hs
      exact Bool.false_ne_true hk.1.2
    rw [ih hk.2 hm, expect_trace he, hr.lists _ _ _ _ hi, forestDispatches_append,
      Layout.dispatches_arrange hk.1.1 harr, forestDispatches_cons, hleaf, List.nil_append,
      List.append_assoc]
  | optional sign part next ihp ihn =>
    rw [Production.keepsDispatches, Bool.and_eq_true] at hk
    obtain ⟨front, mid, hf, h⟩ := bind_eq_ok h
    obtain ⟨more, _, hm, h⟩ := bind_eq_ok h
    cases h
    obtain ⟨-, hp⟩ | ⟨-, rfl, rfl⟩ := optionally_eq_ok hf
    · rw [ihn hk.2 hm, ihp hk.1 hp, forestDispatches_append, List.append_assoc]
    · exact ihn hk.2 hm
  | nested construct part next ihp ihn =>
    simp only [Production.keepsDispatches, Bool.and_eq_true, beq_iff_eq] at hk
    obtain ⟨before, _, hb, h⟩ := bind_eq_ok h
    obtain ⟨hbt, hbd⟩ := comments_trace bare hb
    obtain ⟨children, _, hp, h⟩ := bind_eq_ok h
    obtain ⟨more, _, hm, h⟩ := bind_eq_ok h
    cases h
    obtain ⟨⟨rfl, hpart⟩, hnext⟩ := hk
    rw [ihn hnext hm, ihp hpart hp, hbt, forestDispatches_append, hbd, forestDispatches_cons,
      List.append_assoc]
    rfl

theorem item_trace (hr : ListsRuns readItems)
    (h : item readItems head rest cursor = .ok (some trees) after) :
    after.trace.toList = cursor.trace.toList ++ forestDispatches true trees := by
  cases hc : Choice.of head (significant? rest) with
  | closer =>
    rw [item_closer hc] at h
    cases h
  | forbidden =>
    rw [item_forbidden hc] at h
    cases h
  | terminal =>
    rw [item_terminal hc] at h
    cases h
    have hh : ¬ head.isSymbol '[' := by
      intro hh
      rw [Token.isSymbol_iff] at hh
      simp [Choice.of, hh, Choice.ofSymbol] at hc
    rw [forestDispatches_cons, Tree.dispatches_leaf fun _ => hh]
    exact (List.append_nil _).symm
  | opens rule =>
    rw [item_opens hc] at h
    obtain ⟨children, mid, hp, h⟩ := bind_eq_ok h
    cases h
    obtain ⟨word, hw, hy⟩ := production_sound hr.sound hp
    obtain rfl := (rule.production.read_conserves hr.conserves).tokens_eq hp hw
    dsimp only at hw
    rw [hw] at hc
    rw [production_trace hr rule.keepsDispatches hp,
      Rule.dispatches_build (Choice.opens_iff.1 hc) hy, Array.toList_push, List.append_assoc]
    rfl

theorem items_listsRuns (limit : Nat) : ListsRuns (items limit) := by
  refine ⟨items_sound limit, items_conserves limit, fun closer cursor trees after h => ?_⟩
  induction limit generalizing closer cursor trees after with
  | zero => cases h
  | succ limit ih =>
    obtain ⟨_ | ⟨head, rest⟩, trace⟩ := cursor
    · cases h
    by_cases hh : head.isSymbol closer
    · rw [items_closer limit hh] at h
      cases h
      exact (List.append_nil _).symm
    rw [items_cons limit hh] at h
    obtain ⟨found, mid, hf, h⟩ := bind_eq_ok h
    cases found with
    | none => cases h
    | some first =>
      obtain ⟨more, _, hm, h⟩ := bind_eq_ok h
      cases h
      have hruns : ListsRuns (items limit) := ⟨items_sound limit, items_conserves limit, ih⟩
      rw [ih _ _ _ _ hm, item_trace hruns hf, forestDispatches_append, List.append_assoc]

/-- The choices on the way to a class are the records of what stands below its root. -/
theorem classTree_trace (h : classTree ⟨ts, #[]⟩ = .ok tree after) :
    after.trace.toList = tree.innerDispatches := by
  rw [classTree_apply] at h
  obtain ⟨children, _, hp, h⟩ := bind_eq_ok h
  obtain ⟨ending, _, hc, h⟩ := bind_eq_ok h
  cases h
  obtain ⟨hct, hcd⟩ := comments_trace true hc
  have hk : Production.wholeClass.keepsDispatches true := rfl
  change _ = forestDispatches true (children ++ ending)
  rw [hct, production_trace (items_listsRuns _) hk hp, forestDispatches_append, hcd,
    List.append_nil]
  rfl

end Parser

end Jack
