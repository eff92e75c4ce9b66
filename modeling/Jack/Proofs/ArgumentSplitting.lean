import Jack.Proofs.Arrangement
import Jack.Proofs.Renaming
import Mathlib.Data.List.Basic

namespace Jack

def separated : List α → List α → List α
  | value :: values, separator :: separators => value :: separator :: separated values separators
  | values, _ => values

/-- The error about an argument that is missing beside a tree. An element has no line. -/
def missingBeside (tree : Tree) : ParseError := .missingArgument (tree.token?.getD ⟨.symbol ',', 0⟩)

/-- A comma to blame for an argument that is missing among items. It ends their first chunk without
content, or it is their last comma and the chunk is the last one. -/
inductive LacksArgument (items : List Tree) (comma : Token) : Prop where
  | intro (hs : items.splitOnP (·.isSymbol ',') = before ++ chunk :: after)
      (hb : ∀ other ∈ before, HasContent other) (hc : ¬ HasContent chunk)
      (hk : (if after = [] then (items.filter (·.isSymbol ',')).getLast?
        else (items.filter (·.isSymbol ','))[before.length]?) = some (.leaf comma)) :
      LacksArgument items comma

/-- How far arguments have been read from the left: the children that are made, and the items since
the last comma. -/
structure ArgumentScan where
  children : List Tree
  chunk : List Tree

namespace ArgumentScan

def step (scan : ArgumentScan) (item : Tree) : Except ParseError ArgumentScan :=
  if item.isSymbol ',' then
    if hasContent scan.chunk then .ok ⟨scan.children ++ [expressionOf scan.chunk, item], []⟩
    else .error (missingBeside item)
  else .ok ⟨scan.children, scan.chunk ++ [item]⟩

def finish (scan : ArgumentScan) : Except ParseError Tree :=
  if hasContent scan.chunk then
    .ok (.node .expressionList (scan.children ++ [expressionOf scan.chunk]))
  else
    match scan.children.getLast? with
    | some last => .error (missingBeside last)
    | none => .ok (.node .expressionList scan.chunk)

def run (scan : ArgumentScan) : List Tree → Except ParseError Tree
  | [] => scan.finish
  | item :: items =>
    match scan.step item with
    | .error e => .error e
    | .ok scan => scan.run items

end ArgumentScan

namespace ArgumentScan

/-- The children of a scan, and then the arguments of the chunks that it still has to read. -/
def result (scan : ArgumentScan) (first : List Tree) (chunks : List (Token × List Tree)) :
    Except ParseError Tree :=
  if chunks.isEmpty && !hasContent (scan.chunk ++ first) then
    match scan.children.getLast? with
    | some last => .error (missingBeside last)
    | none => .ok (.node .expressionList (scan.chunk ++ first))
  else
    match argumentsOf (scan.chunk ++ first) chunks with
    | .error e => .error e
    | .ok children => .ok (.node .expressionList (scan.children ++ children))

theorem finish_eq (scan : ArgumentScan) : scan.finish = scan.result [] [] := by
  rw [finish, result, List.append_nil]
  cases hasContent scan.chunk <;> rfl

theorem result_comma (scan : ArgumentScan) (comma : Token) (first : List Tree)
    (chunks : List (Token × List Tree)) :
    scan.result [] ((comma, first) :: chunks) =
      if hasContent scan.chunk then
        result ⟨scan.children ++ [expressionOf scan.chunk, .leaf comma], []⟩ first chunks
      else .error (.missingArgument comma) := by
  rw [result, List.append_nil, if_neg (by simp), argumentsOf]
  cases hasContent scan.chunk with
  | false => rfl
  | true =>
    rw [if_pos rfl, result, List.nil_append, Bool.not_true, Bool.false_or]
    cases chunks.isEmpty && !hasContent first with
    | true =>
      rw [if_pos rfl, if_pos rfl, List.getLast?_append]
      rfl
    | false =>
      rw [if_neg Bool.false_ne_true, if_neg Bool.false_ne_true]
      cases argumentsOf first chunks with
      | error => rfl
      | ok => simp

theorem run_eq (scan : ArgumentScan) (items : List Tree) :
    scan.run items = scan.result (splitCommas items).1 (splitCommas items).2 := by
  induction items using splitCommas_induction generalizing scan with
  | nil => exact scan.finish_eq
  | comma comma items h ih =>
    rw [run, splitCommas_comma h, result_comma, step, if_pos h]
    cases hasContent scan.chunk with
    | false => rfl
    | true => exact ih _
  | other item items h ih =>
    rw [run, splitCommas_other h, step, if_neg h]
    refine (ih _).trans ?_
    rw [result, result, List.append_assoc, List.singleton_append]

/-- Reading arguments from the left splits them at their commas. -/
theorem run_start (items : List Tree) : run ⟨[], []⟩ items = expressionList items := by
  rw [run_eq, result, expressionList_eq, List.nil_append]
  split
  · next h =>
    simp only [Bool.and_eq_true, List.isEmpty_iff] at h
    have hj := splitCommas_join items
    rw [h.1, joinCommas_nil, List.append_nil] at hj
    rw [hj]
    rfl
  · rfl

end ArgumentScan

theorem splitOnP_eq (items : List Tree) :
    items.splitOnP (·.isSymbol ',') =
      (splitCommas items).1 :: (splitCommas items).2.map Prod.snd := by
  induction items using splitCommas_induction with
  | nil => rfl
  | comma comma items h ih =>
    rw [List.splitOnP_cons_eq_if_modifyHead, if_pos h, ih, splitCommas_comma h]
    rfl
  | other item items h ih =>
    rw [List.splitOnP_cons_eq_if_modifyHead, if_neg h, ih, splitCommas_other h]
    rfl

theorem filter_commas_eq (items : List Tree) :
    items.filter (·.isSymbol ',') = ((splitCommas items).2.map Prod.fst).map .leaf := by
  induction items using splitCommas_induction with
  | nil => rfl
  | comma comma items h ih =>
    rw [List.filter_cons, if_pos h, ih, splitCommas_comma h]
    rfl
  | other item items h ih =>
    rw [List.filter_cons, if_neg h, ih, splitCommas_other h]

theorem separated_flatten (first : List Tree) (chunks : List (Token × List Tree)) :
    (separated (first :: chunks.map Prod.snd)
        (((chunks.map Prod.fst).map .leaf).map fun comma => [comma])).flatten =
      first ++ joinCommas chunks := by
  induction chunks generalizing first with
  | nil => rfl
  | cons pair chunks ih =>
    simp only [List.map_cons, separated, List.flatten_cons, ih]
    rfl

variable {items : List Tree}

theorem argumentsOf_of_content
    (h : ∀ chunk ∈ first :: chunks.map Prod.snd, HasContent chunk) :
    argumentsOf first chunks =
      .ok (separated ((first :: chunks.map Prod.snd).map expressionOf)
        ((chunks.map Prod.fst).map .leaf)) := by
  induction chunks generalizing first with
  | nil => rfl
  | cons pair chunks ih =>
    obtain ⟨comma, next⟩ := pair
    rw [List.map_cons, List.forall_mem_cons] at h
    have hn := hasContent_iff.2 (h.2 next (List.mem_cons_self ..))
    rw [argumentsOf, hasContent_iff.2 h.1, hn, ih h.2, if_neg (by simp)]
    rfl

/-- The first chunk without content is blamed on the comma after it, or on the last comma when it
is the last chunk. -/
theorem argumentsOf_of_missing
    (h : first :: chunks.map Prod.snd = before ++ chunk :: after)
    (hb : ∀ other ∈ before, HasContent other) (hc : ¬ HasContent chunk)
    (hk : (if after = [] then (chunks.map Prod.fst).getLast?
      else (chunks.map Prod.fst)[before.length]?) = some comma) :
    argumentsOf first chunks = .error (.missingArgument comma) := by
  induction chunks generalizing first before with
  | nil => simp at hk
  | cons pair chunks ih =>
    obtain ⟨comma', next⟩ := pair
    rw [List.map_cons] at h hk
    rw [argumentsOf]
    cases before with
    | nil =>
      obtain ⟨rfl, rfl⟩ := List.cons.inj h
      rw [hasContent_eq_false_iff.2 hc, Bool.not_false, Bool.true_or, if_pos rfl]
      rw [if_neg (List.cons_ne_nil _ _)] at hk
      cases hk
      rfl
    | cons other before =>
      obtain ⟨rfl, hr⟩ := List.cons.inj h
      obtain ⟨hf, hb⟩ := List.forall_mem_cons.1 hb
      rw [hasContent_iff.2 hf, Bool.not_true, Bool.false_or]
      cases chunks with
      | nil =>
        obtain ⟨rfl, hr⟩ | ⟨rfl, hr⟩ := List.append_eq_singleton_iff.1 hr.symm
        · cases hr
          rw [hasContent_eq_false_iff.2 hc]
          cases hk
          rfl
        · cases hr
      | cons pair' chunks =>
        rw [ih hr hb (by simpa using hk)]
        rfl

theorem expressionList_of_content
    (h : ∀ chunk ∈ items.splitOnP (·.isSymbol ','), HasContent chunk) :
    expressionList items =
      .ok (.node .expressionList
        (separated ((items.splitOnP (·.isSymbol ',')).map expressionOf)
          (items.filter (·.isSymbol ',')))) := by
  rw [splitOnP_eq] at h ⊢
  have hc := hasContent_iff.2 (h _ (List.mem_cons_self ..))
  rw [expressionList_eq, hc, if_neg (by simp), argumentsOf_of_content h, filter_commas_eq]

theorem expressionList_of_no_comma (h : items.filter (·.isSymbol ',') = []) :
    ∃ tree, expressionList items = .ok tree := by
  rw [filter_commas_eq, List.map_eq_nil_iff, List.map_eq_nil_iff] at h
  rw [expressionList_eq, h]
  split
  · exact ⟨_, rfl⟩
  · exact ⟨_, rfl⟩

theorem expressionList_of_lacking (h : LacksArgument items comma) :
    expressionList items = .error (.missingArgument comma) := by
  obtain ⟨hs, hb, hc, hk⟩ := h
  rw [splitOnP_eq] at hs
  rw [filter_commas_eq, List.getLast?_map, List.getElem?_map, ← apply_ite (Option.map Tree.leaf),
    Option.map_eq_some_iff] at hk
  obtain ⟨_, hk, ⟨⟩⟩ := hk
  have hn : ¬ ((splitCommas items).2.isEmpty && !hasContent (splitCommas items).1) := by
    intro he
    rw [Bool.and_eq_true, List.isEmpty_iff] at he
    simp [he.1] at hk
  rw [expressionList_eq, if_neg hn, argumentsOf_of_missing hs hb hc hk]

theorem blamed_comma (h : items.filter (·.isSymbol ',') ≠ [])
    (hs : items.splitOnP (·.isSymbol ',') = before ++ chunk :: after) :
    ∃ comma, (if after = [] then (items.filter (·.isSymbol ',')).getLast?
      else (items.filter (·.isSymbol ','))[before.length]?) = some (.leaf comma) := by
  have hl := congrArg List.length hs
  rw [splitOnP_eq, List.length_cons, List.length_map, List.length_append, List.length_cons] at hl
  rw [filter_commas_eq] at h ⊢
  rw [List.getLast?_map, List.getElem?_map, ← apply_ite (Option.map Tree.leaf)]
  simp only [ne_eq, List.map_eq_nil_iff] at h
  split
  · rw [List.getLast?_eq_some_getLast (by simpa using h)]
    exact ⟨_, rfl⟩
  · next ha =>
    have hp := List.length_pos_of_ne_nil ha
    rw [List.getElem?_eq_getElem (by rw [List.length_map]; omega)]
    exact ⟨_, rfl⟩

theorem exists_lacking (hn : items.filter (·.isSymbol ',') ≠ [])
    (hc : ¬ ∀ chunk ∈ items.splitOnP (·.isSymbol ','), HasContent chunk) :
    ∃ comma, LacksArgument items comma := by
  cases hf : (items.splitOnP (·.isSymbol ',')).find? (!hasContent ·) with
  | none =>
    refine absurd ?_ hc
    simpa [hasContent_iff] using hf
  | some chunk =>
    obtain ⟨hc, before, after, hs, hb⟩ := List.find?_eq_some_iff_append.1 hf
    rw [Bool.not_eq_true', hasContent_eq_false_iff] at hc
    obtain ⟨comma, hk⟩ := blamed_comma hn hs
    exact ⟨comma, hs, by simpa [hasContent_iff] using hb, hc, hk⟩

theorem expressionList_isOk_iff : (∃ tree, expressionList items = .ok tree) ↔
    items.filter (·.isSymbol ',') = [] ∨
      ∀ chunk ∈ items.splitOnP (·.isSymbol ','), HasContent chunk := by
  constructor
  · rintro ⟨tree, hr⟩
    by_contra h
    obtain ⟨hn, hc⟩ := not_or.1 h
    obtain ⟨comma, hl⟩ := exists_lacking hn hc
    rw [expressionList_of_lacking hl] at hr
    cases hr
  · rintro (hn | hc)
    · exact expressionList_of_no_comma hn
    · exact ⟨_, expressionList_of_content hc⟩

theorem expressionList_eq_error_iff : expressionList items = .error e ↔
    ∃ comma, LacksArgument items comma ∧ e = .missingArgument comma := by
  constructor
  · intro hr
    have hi : ¬ ∃ tree, expressionList items = .ok tree := by
      rintro ⟨tree, ht⟩
      rw [ht] at hr
      cases hr
    rw [expressionList_isOk_iff, not_or] at hi
    obtain ⟨comma, hl⟩ := exists_lacking hi.1 hi.2
    rw [expressionList_of_lacking hl] at hr
    cases hr
    exact ⟨comma, hl, rfl⟩
  · rintro ⟨comma, hl, rfl⟩
    exact expressionList_of_lacking hl

theorem splitOnP_of_no_comma (h : items.filter (·.isSymbol ',') = []) :
    items.splitOnP (·.isSymbol ',') = [items] := by
  refine List.splitOnP_eq_singleton fun item hm => ?_
  simpa using List.filter_eq_nil_iff.1 h item hm

theorem expressionList_eq_separated (h : expressionList items = .ok tree) (hi : HasContent items) :
    tree = .node .expressionList
      (separated ((items.splitOnP (·.isSymbol ',')).map expressionOf)
        (items.filter (·.isSymbol ','))) := by
  have hc : ∀ chunk ∈ items.splitOnP (·.isSymbol ','), HasContent chunk := by
    obtain hn | hc := expressionList_isOk_iff.1 ⟨tree, h⟩
    · rw [splitOnP_of_no_comma hn]
      exact List.forall_mem_singleton.2 hi
    · exact hc
  rw [expressionList_of_content hc] at h
  cases h
  rfl

/-- An argument list is split at its commas. It has no comma, or content on each side of every
comma. An argument that is missing is reported at the comma after it, or else at the last one. -/
theorem argumentList_split (items : List Tree) :
    let chunks := items.splitOnP (·.isSymbol ',')
    let commas := items.filter (·.isSymbol ',')
    chunks.length = commas.length + 1 ∧
      (separated chunks (commas.map fun comma => [comma])).flatten = items ∧
      ((∃ tree, expressionList items = .ok tree) ↔
        commas = [] ∨ ∀ chunk ∈ chunks, HasContent chunk) ∧
      (∀ tree, expressionList items = .ok tree →
        tree.tokens = forestTokens items ∧
        (HasContent items →
          tree = .node .expressionList (separated (chunks.map expressionOf) commas)) ∧
        (¬ HasContent items → tree = .node .expressionList items)) ∧
      (∀ e, expressionList items = .error e ↔
        ∃ comma, LacksArgument items comma ∧ e = .missingArgument comma ∧
          e.line? = some comma.line) ∧
      ArgumentScan.run ⟨[], []⟩ items = expressionList items := by
  intro chunks commas
  refine ⟨?_, ?_, expressionList_isOk_iff,
    fun tree hr => ⟨tokens_expressionList hr, expressionList_eq_separated hr, fun hi => ?_⟩,
    fun e => ?_, ArgumentScan.run_start items⟩
  · rw [show chunks = _ from splitOnP_eq items, show commas = _ from filter_commas_eq items,
      List.length_cons, List.length_map, List.length_map, List.length_map]
  · rw [show chunks = _ from splitOnP_eq items, show commas = _ from filter_commas_eq items,
      separated_flatten, splitCommas_join]
  · rw [expressionList_of_no_content hi] at hr
    cases hr
    rfl
  · rw [expressionList_eq_error_iff]
    constructor
    · rintro ⟨comma, hl, rfl⟩
      exact ⟨comma, hl, rfl, rfl⟩
    · rintro ⟨comma, hl, he, -⟩
      exact ⟨comma, hl, he⟩

/-- The items of `5, /* largest */ max(i, j)`, where the call is an element already. -/
def nestedItems : List Tree :=
  [.leaf ⟨.integer 5, 1⟩, .leaf ⟨.symbol ',', 1⟩, .leaf ⟨.comment "/* largest */", 2⟩,
   .node .term [.leaf ⟨.identifier "max", 2⟩, .leaf ⟨.symbol '(', 2⟩,
    .node .expressionList [expressionOf [.leaf ⟨.identifier "i", 2⟩], .leaf ⟨.symbol ',', 2⟩,
      expressionOf [.leaf ⟨.identifier "j", 2⟩]],
    .leaf ⟨.symbol ')', 2⟩]]

def trailingItems : List Tree :=
  nestedItems ++ [.leaf ⟨.symbol ',', 3⟩, .leaf ⟨.comment "// none", 4⟩]

theorem nestedItems_split :
    (∃ tree, expressionList nestedItems = .ok tree ∧ tree.tokens = forestTokens nestedItems ∧
      tree = .node .expressionList [expressionOf (nestedItems.take 1), .leaf ⟨.symbol ',', 1⟩,
        expressionOf (nestedItems.drop 2)]) ∧
      ∃ comma, LacksArgument trailingItems comma ∧ comma.line = 3 := by
  obtain ⟨-, -, -, hok, -, -⟩ := argumentList_split nestedItems
  obtain ⟨-, -, -, -, herror, -⟩ := argumentList_split trailingItems
  obtain ⟨ht, hs, -⟩ := hok _ rfl
  refine ⟨⟨_, rfl, ht, hs ⟨_, List.mem_cons_self .., fun ⟨h⟩ => nomatch h⟩⟩, ?_⟩
  obtain ⟨comma, hl, he, -⟩ := (herror _).1 rfl
  cases he
  exact ⟨_, hl, rfl⟩

end Jack
