import Jack.Proofs.Evaluation
import Jack.Proofs.Leaves

namespace Jack

/-- The end of a run on `input` that only took tokens from its front. The value of a run that
succeeds holds the tokens `front` and then those that were taken. -/
def Conserved (tokensOf : α → List Token) (front input : List Token) :
    EStateM.Result ParseError Cursor α → Prop
  | .ok a after => ∃ word, tokensOf a = front ++ word ∧ input = word ++ after.unread
  | .error _ after => after.unread <:+ input

def lastCursor : EStateM.Result ParseError Cursor α → Cursor
  | .ok _ after | .error _ after => after

theorem Conserved.suffix {result : EStateM.Result ParseError Cursor α}
    (h : Conserved tokensOf front input result) : (lastCursor result).unread <:+ input := by
  cases result with
  | error e after => exact h
  | ok a after =>
    obtain ⟨word, -, hw⟩ := h
    exact ⟨word, hw.symm⟩

theorem Conserved.cons {result : EStateM.Result ParseError Cursor α}
    (h : Conserved tokensOf [head] input result) :
    Conserved tokensOf [] (head :: input) result := by
  cases result with
  | error e after => exact List.suffix_cons_iff.2 (.inr h)
  | ok a after =>
    obtain ⟨word, ha, hw⟩ := h
    exact ⟨head :: word, ha, by rw [hw, List.cons_append]⟩

namespace Parser

def Conserves (tokensOf : α → List Token) (front : List Token) (p : Parser α) : Prop :=
  ∀ cursor, Conserved tokensOf front cursor.unread (p cursor)

theorem Conserves.suffix {p : Parser α} (h : Conserves tokensOf front p) (cursor : Cursor) :
    (lastCursor (p cursor)).unread <:+ cursor.unread := Conserved.suffix (h cursor)

theorem Conserves.suffix_of_ok {p : Parser α} (h : Conserves tokensOf front p)
    (hr : p cursor = .ok a after) : after.unread <:+ cursor.unread := by
  have hs := h.suffix cursor
  rwa [hr] at hs

theorem Conserves.tokens_eq {p : Parser (List Tree)} (h : Conserves forestTokens [] p)
    (hr : p cursor = .ok trees after) (hw : cursor.unread = word ++ after.unread) :
    forestTokens trees = word := by
  have hc := h cursor
  rw [hr] at hc
  obtain ⟨word', ht, hw'⟩ := hc
  rw [ht, List.nil_append]
  exact List.append_cancel_right (hw'.symm.trans hw)

theorem Conserves.pure {tokensOf : α → List Token} (h : tokensOf a = front) :
    Conserves tokensOf front (Pure.pure a) :=
  fun _ => ⟨[], by rw [h, List.append_nil], rfl⟩

theorem Conserves.fail {tokensOf : α → List Token} : Conserves tokensOf front (fail e) :=
  fun _ => List.suffix_refl _

theorem Conserves.bind_of_run {tokensOf : α → List Token} {tokensOf' : β → List Token}
    {p : Parser α} {f : α → Parser β} (hp : Conserved tokensOf [] cursor.unread (p cursor))
    (hf : ∀ a, Conserves tokensOf' (front ++ tokensOf a) (f a)) :
    Conserved tokensOf' front cursor.unread ((p >>= f) cursor) := by
  cases hr : p cursor with
  | error e mid =>
    rw [bind_error f hr]
    rwa [hr] at hp
  | ok a mid =>
    rw [hr] at hp
    rw [bind_ok f hr]
    obtain ⟨word, ha, hw⟩ := hp
    have h := hf a mid
    cases hs : f a mid with
    | error e after =>
      rw [hs] at h
      exact h.trans ⟨word, hw.symm⟩
    | ok b after =>
      rw [hs] at h
      obtain ⟨more, hb, hm⟩ := h
      refine ⟨word ++ more, ?_, ?_⟩
      · rw [hb, ha, List.nil_append, List.append_assoc]
      · rw [hw, hm, List.append_assoc]

theorem Conserves.bind {tokensOf : α → List Token} {tokensOf' : β → List Token}
    {p : Parser α} {f : α → Parser β} (hp : Conserves tokensOf [] p)
    (hf : ∀ a, Conserves tokensOf' (front ++ tokensOf a) (f a)) :
    Conserves tokensOf' front (p >>= f) :=
  fun cursor => bind_of_run (hp cursor) hf

theorem Conserves.ofExcept_bind {tokensOf : β → List Token} {x : Except ParseError α}
    {f : α → Parser β} (h : ∀ a, x = .ok a → Conserves tokensOf front (f a)) :
    Conserves tokensOf front (ofExcept x >>= f) := by
  cases x with
  | error e => exact Conserves.fail
  | ok a => exact h a rfl

theorem comments_conserves : Conserves forestTokens [] comments :=
  fun cursor => ⟨cursor.unread.takeWhile Token.isComment, forestTokens_leaves _,
    List.takeWhile_append_dropWhile.symm⟩

theorem expect_conserves (expected : Expected) :
    Conserves Tree.tokens [] (expect expected) := by
  rintro ⟨_ | ⟨t, rest⟩, trace⟩
  · exact List.suffix_refl _
  · rw [expect_cons]
    by_cases h : expected.accepts t
    · rw [if_pos h]
      exact ⟨[t], rfl, rfl⟩
    · rw [if_neg h]
      exact List.suffix_refl _

theorem Conserves.optionally {part : Parser (List Tree)} (h : Conserves forestTokens [] part) :
    Conserves forestTokens [] (optionally sign part) := by
  intro cursor
  rw [optionally_apply]
  by_cases hs : (significant? cursor.unread).any sign.accepts
  · rw [if_pos hs]
    exact h cursor
  · rw [if_neg hs]
    exact ⟨[], rfl, rfl⟩

end Parser

theorem Production.read_conserves {items : Char → Parser (List Tree)}
    (h : ∀ closer, (items closer).Conserves forestTokens [])
    (production : Production) : (production.read items).Conserves forestTokens [] := by
  induction production with
  | done => exact .pure rfl
  | token expected next ih =>
    apply Parser.comments_conserves.bind
    intro before
    apply (Parser.expect_conserves expected).bind
    intro leaf
    apply ih.bind
    intro more
    apply Parser.Conserves.pure
    simp
  | run closer layout next ih =>
    refine (h closer).bind fun run => .ofExcept_bind fun arranged ha => ?_
    apply (Parser.expect_conserves _).bind
    intro leaf
    apply ih.bind
    intro more
    apply Parser.Conserves.pure
    simp [Layout.tokens_arrange ha]
  | optional sign part next ihp ihn =>
    apply ihp.optionally.bind
    intro front
    apply ihn.bind
    intro more
    apply Parser.Conserves.pure
    simp
  | nested construct part next ihp ihn =>
    apply Parser.comments_conserves.bind
    intro before
    apply ihp.bind
    intro children
    apply ihn.bind
    intro more
    apply Parser.Conserves.pure
    simp

def itemTokens : Option (List Tree) → List Token
  | none => []
  | some trees => forestTokens trees

namespace Parser

theorem item_conserves {items : Char → Parser (List Tree)}
    (h : ∀ closer, (items closer).Conserves forestTokens []) (head : Token) (rest : List Token)
    (trace : Array Dispatch) :
    Conserved itemTokens [] (head :: rest) (item items head rest ⟨head :: rest, trace⟩) := by
  cases hc : Choice.of head (significant? rest) with
  | closer =>
    rw [item_closer hc]
    exact ⟨[], rfl, rfl⟩
  | forbidden =>
    rw [item_forbidden hc]
    exact List.suffix_refl _
  | terminal =>
    rw [item_terminal hc]
    exact ⟨[head], rfl, rfl⟩
  | opens rule =>
    rw [item_opens hc]
    have hr : Conserves itemTokens [head] (rule.production.read items >>= fun children =>
        Pure.pure (some (rule.build head children))) := by
      apply (rule.production.read_conserves h).bind
      intro children
      apply Parser.Conserves.pure
      rw [itemTokens, Rule.tokens_build, List.singleton_append]
    exact (hr _).cons

/-- Reading a run of items neither loses nor changes tokens, wherever it stops. -/
theorem items_conserves (limit : Nat) (closer : Char) :
    (items limit closer).Conserves forestTokens [] := by
  induction limit generalizing closer with
  | zero => exact .fail
  | succ limit ih =>
    rintro ⟨_ | ⟨head, rest⟩, trace⟩
    · exact List.suffix_refl _
    by_cases hh : head.isSymbol closer
    · rw [items_closer limit hh]
      exact ⟨[], rfl, rfl⟩
    rw [items_cons limit hh]
    apply Conserves.bind_of_run (item_conserves ih head rest trace)
    intro found
    cases found with
    | none => exact .fail
    | some trees =>
      apply (ih closer).bind
      intro more
      apply Parser.Conserves.pure
      simp [itemTokens]

theorem classTree_conserves : classTree.Conserves Tree.tokens [] := by
  intro cursor
  rw [classTree_apply]
  have hr : Conserves Tree.tokens [] (Production.wholeClass.read (items cursor.unread.length) >>=
      fun children => do return .node .class_ (children ++ (← comments))) := by
    apply (Production.read_conserves (items_conserves _) _).bind
    intro children
    apply comments_conserves.bind
    intro after
    apply Parser.Conserves.pure
    simp
  exact hr cursor

theorem program_conserves : program.Conserves Tree.tokens [] := by
  apply classTree_conserves.bind
  intro tree
  rintro ⟨_ | ⟨t, rest⟩, trace⟩
  · exact ⟨[], by simp, rfl⟩
  · exact List.suffix_refl _

end Parser

end Jack
