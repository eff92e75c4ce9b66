import Jack.Proofs.ConstructSurvey

namespace Jack

theorem Target.statement (h : Target target) (hh : Terminal (.keyword .let_) head)
    (he : Spaced (.symbol '=') equals) (hg : ∀ c ∈ gap, c.isComment)
    (hc : Terminal (.symbol ';') closing) :
    ∃ trees, forestTokens trees = target ++ equals ∧ ∀ next,
      Item (head :: (target ++ (equals ++ (gap ++ [closing]))))
        [.node .letStatement (.leaf head ::
          (trees ++ [.node .expression (leaves gap), .leaf closing]))] next := by
  have hv : Run ';' .expression (gap ++ [closing]) [expressionOf (leaves gap), .leaf closing] :=
    .intro (items_comments hg _) hc (.expression (isExpression_iff.2 rfl))
  rw [expressionOf_comments hg] at hv
  cases h with
  | name hn =>
    refine ⟨leaves target ++ leaves equals, by simp, fun next => ?_⟩
    rw [List.append_assoc]
    exact .let_ hh hn he hv
  | @element name opening index position hn ho hi =>
    have ht := hi.surveyed.1
    refine ⟨leaves name ++ (leaves opening ++ (position ++ leaves equals)), by simp [ht],
      fun next => ?_⟩
    have hs : Item _ _ next := .letElement hh hn ho hi he hv
    simpa using hs

theorem not_hasContent_leaves (hc : ∀ c ∈ gap, c.isComment) : ¬ HasContent (leaves gap) := by
  rintro ⟨item, hm, hi⟩
  obtain ⟨c, hg, rfl⟩ := List.mem_map.1 hm
  exact hi (remark_iff.2 (hc c hg))

theorem eq_leaves_of_no_content (h : ¬ HasContent items) :
    ∃ gap, items = leaves gap ∧ ∀ c ∈ gap, c.isComment := by
  induction items with
  | nil => exact ⟨[], rfl, by simp⟩
  | cons item items ih =>
    obtain ⟨gap, rfl, hg⟩ := ih fun ⟨other, hm, hc⟩ => h ⟨other, List.mem_cons_of_mem _ hm, hc⟩
    have hi : item.isComment := by
      by_contra hi
      exact h ⟨item, List.mem_cons_self .., mt remark_iff.1 hi⟩
    cases item with
    | node => cases hi
    | leaf c => exact ⟨c :: gap, rfl, List.forall_mem_cons.2 ⟨hi, hg⟩⟩

namespace Surveyed

theorem occurs_between (h : Surveyed [] [tree] [])
    (ht : tree.tokens = before ++ (gap ++ after)) (hc : ∀ c ∈ gap, c.isComment)
    (hb : BetweenBrackets before after) :
    Occurs (.node .expression (leaves gap)) before after tree := by
  have hw : forestTokens [tree] ++ [] = before ++ (gap ++ after) := by simpa using ht
  have hl : before.length ≤ (forestTokens [tree]).length := by simp [ht]
  obtain ⟨rest, ho⟩ := h.filled before gap after hw hb.ne_nil hl hc hb
  rw [occursIn_singleton_iff] at ho
  have ha : tree.tokens = before ++ ((Tree.node .expression (leaves gap)).tokens ++ after) := by
    simpa using ht
  obtain rfl := ho.after_eq ha
  exact ho

theorem occurs_value (h : Surveyed [] [tree] []) (hh : head.isKeyword .let_)
    (htarget : Target target) (he : Spaced (.symbol '=') equals) (hs : closing.isSymbol ';')
    (ht : tree.tokens = (before ++ head :: (target ++ equals)) ++ (gap ++ closing :: after))
    (hc : ∀ c ∈ gap, c.isComment) :
    Occurs (.node .expression (leaves gap)) (before ++ head :: (target ++ equals))
      (closing :: after) tree := by
  have hw : forestTokens [tree] ++ [] =
      before ++ head :: (target ++ (equals ++ (gap ++ closing :: after))) := by simpa using ht
  have hl : before.length < (forestTokens [tree]).length := by simp [ht]
  obtain ⟨children, rest, ho, hd⟩ :=
    h.assignment before head _ hw hl hh (htarget.not_parameterized he)
  rw [occursIn_singleton_iff] at ho
  obtain ⟨trees, htrees, hd'⟩ :=
    htarget.statement (terminal_iff.2 hh) he hc (terminal_iff.2 hs)
  -- The statement in the tree and the one without content start at the same token.
  have hu : forestTokens children ++ rest =
      (target ++ (equals ++ (gap ++ [closing]))) ++ after := by
    have hu := ho.tokens
    rw [ht, List.append_assoc, List.append_cancel_left_eq] at hu
    simpa using hu.symm
  obtain ⟨htokens, hn⟩ := Parser.item_unique (hd _) (hd' _) hu
  rw [htokens] at hu
  obtain rfl := List.append_cancel_left hu
  cases hn
  have hv : Occurs (.node .expression (leaves gap)) (forestTokens (.leaf head :: trees) ++ [])
      ([] ++ forestTokens [.leaf closing])
      (.node .letStatement ((.leaf head :: trees) ++
        .node .expression (leaves gap) :: [.leaf closing])) := .child .here
  rw [List.append_nil, forestTokens_cons, htrees] at hv
  exact hv.trans ho

/-- Where the grammar asks for an expression and there are comments only, an expression stands that
has only them. -/
theorem occurs (h : Surveyed [] [tree] []) (ht : tree.tokens = before ++ (gap ++ after))
    (hc : ∀ c ∈ gap, c.isComment) (hb : BlankPlace before after) :
    Occurs (.node .expression (leaves gap)) before after tree := by
  cases hb with
  | brackets hb => exact h.occurs_between ht hc hb
  | value hh htarget he hs => exact h.occurs_value hh htarget he hs ht hc

end Surveyed

/-- The expressions without content of an accepted token list stand where the grammar asks for an
expression and there are comments only, so that all expressions have content unless there is such a
place. Arguments and the values that are returned have content in any case. -/
theorem expressions_have_content_iff (h : (parse ts).result = .ok tree) :
    (∀ before gap after, ts = before ++ (gap ++ after) → (∀ c ∈ gap, c.isComment) →
      (Occurs (.node .expression (leaves gap)) before after tree ↔ BlankPlace before after)) ∧
    ((∀ children before after, Occurs (.node .expression children) before after tree →
        HasContent children) ↔
      ∀ before gap after, ts = before ++ (gap ++ after) → (∀ c ∈ gap, c.isComment) →
        ¬ BlankPlace before after) ∧
    ∀ construct children before after, Occurs (.node construct children) before after tree →
      construct = .expressionList ∨ construct = .returnStatement →
      ∀ inner, .node .expression inner ∈ children → HasContent inner := by
  obtain ⟨ht, hs⟩ := ((parse_ok_iff_derives tree ts).1 h).surveyed
  have hblank {children : List Tree} {before after : List Token}
      (ho : Occurs (.node .expression children) before after tree) (hc : ¬ HasContent children) :
      BlankPlace before after := by
    have hb := (hs.blank _ _ _ (occursIn_singleton_iff.2 ho)).resolve_left hc
    rwa [List.nil_append, List.append_nil] at hb
  refine ⟨fun before gap after hw hc => ⟨fun ho => ?_, fun hb => ?_⟩, ⟨?_, ?_⟩, ?_⟩
  · exact hblank ho (not_hasContent_leaves hc)
  · exact hs.occurs (ht.trans hw) hc hb
  · intro hcontent before gap after hw hc hb
    exact not_hasContent_leaves hc (hcontent _ _ _ (hs.occurs (ht.trans hw) hc hb))
  · intro hn children before after ho
    by_contra hc
    obtain ⟨gap, rfl, hg⟩ := eq_leaves_of_no_content hc
    refine hn before gap after ?_ hg (hblank ho hc)
    rw [← ht, ho.tokens, Tree.tokens_node, forestTokens_leaves_word]
  · intro construct children before after ho hc
    refine hs.needed _ _ _ _ (occursIn_singleton_iff.2 ho) ?_
    obtain rfl | rfl := hc <;> rfl

/-- A class with a function that assigns no value, as in `let x = ;`. -/
def unassignedClass : List Token :=
  [⟨.keyword .class_, 1⟩, ⟨.identifier "A", 1⟩, ⟨.symbol '\x7b', 1⟩,
   ⟨.keyword .function, 1⟩, ⟨.keyword .void, 1⟩, ⟨.identifier "f", 1⟩, ⟨.symbol '(', 1⟩,
   ⟨.symbol ')', 1⟩, ⟨.symbol '\x7b', 1⟩,
   ⟨.keyword .let_, 1⟩, ⟨.identifier "x", 1⟩, ⟨.symbol '=', 1⟩, ⟨.symbol ';', 1⟩,
   ⟨.symbol '\x7d', 1⟩, ⟨.symbol '\x7d', 1⟩]

theorem unassignedClass_lacks_content :
    ∃ tree, (parse unassignedClass).result = .ok tree ∧
      ∃ children before after, Occurs (.node .expression children) before after tree ∧
        ¬ HasContent children := by
  obtain ⟨tree, h⟩ : ∃ tree, (parse unassignedClass).result = .ok tree := ⟨_, rfl⟩
  obtain ⟨ht, hs⟩ := ((parse_ok_iff_derives tree _).1 h).surveyed
  have hb : BlankPlace (unassignedClass.take 9 ++ ⟨.keyword .let_, 1⟩ ::
      ([⟨.identifier "x", 1⟩] ++ [⟨.symbol '=', 1⟩])) (unassignedClass.drop 12) :=
    .value rfl (.name (.token .identifier)) (.token .symbol) rfl
  have hn : ∀ c ∈ ([] : List Token), c.isComment := by simp
  exact ⟨tree, h, _, _, _, hs.occurs (ht.trans rfl) hn hb, not_hasContent_leaves hn⟩

def uncheckedClass : List Token :=
  [⟨.keyword .class_, 1⟩, ⟨.identifier "A", 1⟩, ⟨.symbol '\x7b', 1⟩,
   ⟨.keyword .function, 2⟩, ⟨.keyword .void, 2⟩, ⟨.identifier "f", 2⟩, ⟨.symbol '(', 2⟩,
   ⟨.symbol ')', 2⟩, ⟨.symbol '\x7b', 2⟩,
   ⟨.keyword .while_, 3⟩, ⟨.symbol '(', 3⟩, ⟨.comment "// always", 3⟩, ⟨.symbol ')', 4⟩,
   ⟨.symbol '\x7b', 4⟩, ⟨.symbol '\x7d', 4⟩, ⟨.symbol '\x7d', 5⟩, ⟨.symbol '\x7d', 5⟩]

theorem uncheckedClass_lacks_condition :
    ∃ tree, (parse uncheckedClass).result = .ok tree ∧
      Occurs (.node .expression [.leaf ⟨.comment "// always", 3⟩]) (uncheckedClass.take 11)
        (uncheckedClass.drop 12) tree ∧
      ¬ ∀ children before after, Occurs (.node .expression children) before after tree →
        HasContent children := by
  obtain ⟨tree, h⟩ : ∃ tree, (parse uncheckedClass).result = .ok tree := ⟨_, rfl⟩
  obtain ⟨ho, hc, -⟩ := expressions_have_content_iff h
  have hg : ∀ c ∈ [(⟨.comment "// always", 3⟩ : Token)], c.isComment :=
    List.forall_mem_singleton.2 rfl
  have hw : Terminal (.keyword .while_) ⟨.keyword .while_, 3⟩ := .keyword
  have hn := not_endsInName_keyword hw (uncheckedClass.take 9)
  have hb : BlankPlace (uncheckedClass.take 10 ++ [⟨.symbol '(', 3⟩]) (uncheckedClass.drop 12) :=
    .brackets (.group hn rfl rfl)
  exact ⟨tree, h, (ho _ _ _ rfl hg).2 hb, fun hall => hc.1 hall _ _ _ rfl hg hb⟩

end Jack
