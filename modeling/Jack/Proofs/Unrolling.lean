import Jack.Proofs.Recognition
import Jack.Proofs.SessionConservation

namespace Jack

inductive Step where
  | continued | halted
  deriving DecidableEq, Repr

namespace Parser

/-- One step of a scan at the token `head`: the trees of the item that starts there are put after
those already seen, and a closer is left where it is. The runs in the item are read by `again`. -/
def step (again : Char → Parser (List Tree)) (seen : List Tree) (head : Token)
    (rest : List Token) : Parser (Step × List Tree) := do
  match ← item again head rest with
  | none => return (.halted, seen)
  | some trees => return (.continued, seen ++ trees)

/-- One round of a scan up to `closer`, with the trees already seen. Nothing counts the rounds:
`again` is the scan itself, which goes on with this run and reads the runs in its items. -/
def round (again : Char → List Tree → Parser (List Tree)) (closer : Char) (seen : List Tree) :
    Parser (List Tree) := do
  match ← unread with
  | [] => fail (.unexpectedEnd (.symbol closer))
  | head :: rest =>
    if head.isSymbol closer then return seen
    else
      match ← step (again · []) seen head rest with
      | (.halted, _) => fail (.mismatchedCloser closer head)
      | (.continued, trees) => again closer trees

/-- A scan whose calls of itself are unrolled to a depth. The calls from there on are `beyond`. -/
def unrolled (beyond : Char → List Tree → Parser (List Tree)) :
    Nat → Char → List Tree → Parser (List Tree)
  | 0 => beyond
  | depth + 1 => round (unrolled beyond depth)

def limited (limit : Nat) (closer : Char) (seen : List Tree) : Parser (List Tree) := do
  return seen ++ (← items limit closer)

section Step

variable {again : Char → Parser (List Tree)} {head : Token} {rest : List Token}

theorem step_error (h : item again head rest cursor = .error e after) (seen : List Tree) :
    step again seen head rest cursor = .error e after := bind_error _ h

theorem step_halted (h : item again head rest cursor = .ok none after) (seen : List Tree) :
    step again seen head rest cursor = .ok (.halted, seen) after := bind_ok _ h

theorem step_continued (h : item again head rest cursor = .ok (some trees) after)
    (seen : List Tree) :
    step again seen head rest cursor = .ok (.continued, seen ++ trees) after := bind_ok _ h

theorem step_lastCursor (cursor : Cursor) (seen : List Tree) :
    lastCursor (step again seen head rest cursor) = lastCursor (item again head rest cursor) := by
  cases h : item again head rest cursor with
  | error e after => rw [step_error h]; rfl
  | ok found after =>
    cases found with
    | none => rw [step_halted h]; rfl
    | some trees => rw [step_continued h]; rfl

end Step

@[simp] theorem limited_nil (limit : Nat) (closer : Char) :
    limited limit closer [] = items limit closer := bind_pure _

theorem limited_error (h : items limit closer cursor = .error e after) :
    limited limit closer seen cursor = .error e after := bind_error _ h

theorem limited_ok (h : items limit closer cursor = .ok more after) :
    limited limit closer seen cursor = .ok (seen ++ more) after := bind_ok _ h

theorem limited_conserves (limit : Nat) (closer : Char) (seen : List Tree) :
    Conserves forestTokens (forestTokens seen) (limited limit closer seen) := by
  apply (items_conserves limit closer).bind
  intro more
  exact .pure (forestTokens_append seen more)

section Round

variable {again : Char → List Tree → Parser (List Tree)} {seen : List Tree}

theorem round_closer (h : head.isSymbol closer) (rest : List Token) (trace : Array Dispatch) :
    round again closer seen ⟨head :: rest, trace⟩ = .ok seen ⟨head :: rest, trace⟩ := by
  change (if head.isSymbol closer then _ else _ : Parser _) _ = _
  exact congrFun (if_pos h) _

theorem round_cons (h : ¬ head.isSymbol closer) (rest : List Token) (trace : Array Dispatch) :
    round again closer seen ⟨head :: rest, trace⟩ =
      (do
        match ← step (again · []) seen head rest with
        | (.halted, _) => fail (.mismatchedCloser closer head)
        | (.continued, trees) => again closer trees : Parser _) ⟨head :: rest, trace⟩ := by
  change (if head.isSymbol closer then _ else _ : Parser _) _ = _
  exact congrFun (if_neg h) _

end Round

/-- Readers that do the same when at most `limit` tokens are unread, and leave at most as many. -/
def Coincides (limit : Nat) (p q : Parser α) : Prop :=
  ∀ cursor, cursor.unread.length ≤ limit →
    p cursor = q cursor ∧ (lastCursor (p cursor)).unread.length ≤ limit

namespace Coincides

theorem of_eq {tokensOf : α → List Token} {p q : Parser α} (h : Conserves tokensOf front p)
    (he : ∀ cursor, cursor.unread.length ≤ limit → p cursor = q cursor) : Coincides limit p q :=
  fun cursor hl => ⟨he cursor hl, (h.suffix cursor).length_le.trans hl⟩

theorem refl {tokensOf : α → List Token} {p : Parser α} (h : Conserves tokensOf front p) :
    Coincides limit p p := of_eq h fun _ _ => rfl

theorem pure (a : α) : Coincides limit (Pure.pure a) (Pure.pure a) := fun _ hl => ⟨rfl, hl⟩

theorem ofExcept (x : Except ParseError α) :
    Coincides limit (Parser.ofExcept x) (Parser.ofExcept x) := by
  cases x <;> exact fun _ hl => ⟨rfl, hl⟩

theorem bind {p q : Parser α} {f g : α → Parser β} (h : Coincides limit p q)
    (hf : ∀ a, Coincides limit (f a) (g a)) : Coincides limit (p >>= f) (q >>= g) := by
  intro cursor hl
  obtain ⟨he, hm⟩ := h cursor hl
  cases hp : p cursor with
  | error e mid =>
    rw [hp] at he hm
    rw [bind_error f hp, bind_error g he.symm]
    exact ⟨rfl, hm⟩
  | ok a mid =>
    rw [hp] at he hm
    rw [bind_ok f hp, bind_ok g he.symm]
    exact hf a mid hm

theorem optionally {part part' : Parser (List Tree)} (h : Coincides limit part part') :
    Coincides limit (optionally sign part) (Parser.optionally sign part') := by
  intro cursor hl
  rw [optionally_apply, optionally_apply]
  split
  · exact h cursor hl
  · exact ⟨rfl, hl⟩

end Coincides

variable {left right : Char → Parser (List Tree)}

theorem production_coincides (h : ∀ closer, Coincides limit (left closer) (right closer))
    (production : Production) : Coincides limit (production.read left) (production.read right) := by
  induction production with
  | done => exact .pure _
  | token expected next ih =>
    apply (Coincides.refl comments_conserves).bind
    intro before
    apply (Coincides.refl (expect_conserves expected)).bind
    intro leaf
    apply ih.bind
    intro more
    exact .pure _
  | run closer layout next ih =>
    apply (h closer).bind
    intro items
    apply (Coincides.ofExcept _).bind
    intro arranged
    apply (Coincides.refl (expect_conserves _)).bind
    intro leaf
    apply ih.bind
    intro more
    exact .pure _
  | optional sign part next ihp ihn =>
    apply ihp.optionally.bind
    intro front
    apply ihn.bind
    intro more
    exact .pure _
  | nested construct part next ihp ihn =>
    apply (Coincides.refl comments_conserves).bind
    intro before
    apply ihp.bind
    intro children
    apply ihn.bind
    intro more
    exact .pure _

theorem item_coincides (h : ∀ closer, Coincides limit (left closer) (right closer))
    (hl : rest.length ≤ limit) (head : Token) (cursor : Cursor) :
    item left head rest cursor = item right head rest cursor := by
  cases hc : Choice.of head (significant? rest) with
  | closer => rw [item_closer hc, item_closer hc]
  | forbidden => rw [item_forbidden hc, item_forbidden hc]
  | terminal => rw [item_terminal hc, item_terminal hc]
  | opens rule =>
    rw [item_opens hc, item_opens hc]
    have hp := (production_coincides h rule.production).bind fun children =>
      .pure (some (rule.build head children))
    exact (hp ⟨rest, _⟩ hl).1

theorem step_coincides (h : ∀ closer, Coincides limit (left closer) (right closer))
    (hl : rest.length ≤ limit) (seen : List Tree) (head : Token) (cursor : Cursor) :
    step left seen head rest cursor = step right seen head rest cursor := by
  simp only [step, bind, EStateM.bind, item_coincides h hl head cursor]

theorem limited_round (h : ∀ closer seen,
      Coincides limit (limited limit closer seen) (unrolled beyond depth closer seen))
    (hl : rest.length ≤ limit) (hh : ¬ head.isSymbol closer) (seen : List Tree)
    (trace : Array Dispatch) :
    limited (limit + 1) closer seen ⟨head :: rest, trace⟩ =
      round (unrolled beyond depth) closer seen ⟨head :: rest, trace⟩ := by
  have hn (closer : Char) : Coincides limit (items limit closer)
      (unrolled beyond depth closer []) := by
    rw [← limited_nil]
    exact h closer []
  have he := item_coincides hn hl head ⟨head :: rest, trace⟩
  have hi := items_cons limit hh rest trace
  rw [round_cons hh]
  cases hf : item (items limit) head rest ⟨head :: rest, trace⟩ with
  | error e after =>
    rw [bind_error _ hf] at hi
    rw [bind_error _ (step_error (he.symm.trans hf) seen)]
    exact limited_error hi
  | ok found mid =>
    rw [bind_ok _ hf] at hi
    cases found with
    | none =>
      rw [bind_ok _ (step_halted (he.symm.trans hf) seen)]
      exact limited_error hi
    | some trees =>
      have hmid := (item_suffix (items_sound limit) hf).length_le.trans hl
      rw [bind_ok _ (step_continued (he.symm.trans hf) seen)]
      refine Eq.trans ?_ (h closer (seen ++ trees) mid hmid).1
      cases hr : items limit closer mid with
      | error e after =>
        rw [limited_error hr]
        exact limited_error (hi.trans (bind_error _ hr))
      | ok more after =>
        rw [limited_ok hr, List.append_assoc]
        exact limited_ok (hi.trans (bind_ok _ hr))

theorem limited_unrolled (beyond : Char → List Tree → Parser (List Tree)) (hd : limit < depth)
    (closer : Char) (seen : List Tree) :
    Coincides limit (limited limit closer seen) (unrolled beyond depth closer seen) := by
  -- A round takes a token at least, so the rest of the run and the runs in an item have a smaller
  -- limit and one round less.
  induction limit generalizing depth closer seen with
  | zero =>
    cases depth with
    | zero => cases hd
    | succ depth =>
      apply Coincides.of_eq (limited_conserves 0 closer seen)
      rintro ⟨ahead, trace⟩ hl
      obtain rfl := List.length_eq_zero_iff.1 (Nat.le_zero.1 hl)
      rfl
  | succ limit ih =>
    cases depth with
    | zero => cases hd
    | succ depth =>
      have hd := Nat.lt_of_succ_lt_succ hd
      apply Coincides.of_eq (limited_conserves (limit + 1) closer seen)
      rintro ⟨_ | ⟨head, rest⟩, trace⟩ hl
      · exact limited_error (items_nil (limit + 1) closer trace)
      by_cases hh : head.isSymbol closer
      · rw [unrolled, round_closer hh, limited_ok (items_closer limit hh rest trace),
          List.append_nil]
      · exact limited_round (ih hd) (Nat.le_of_succ_le_succ hl) hh seen trace

/-- The limit of a scan and the depth of another one do not matter, when they cover the tokens
ahead. -/
theorem limited_coincides (beyond : Char → List Tree → Parser (List Tree)) (hd : ahead < depth)
    (hl : ahead ≤ limit) (closer : Char) (seen : List Tree) :
    Coincides ahead (limited limit closer seen) (unrolled beyond depth closer seen) := by
  apply Coincides.of_eq (limited_conserves limit closer seen)
  intro cursor hc
  -- A scan with the greater limit is compared with one that is deep enough for both limits.
  have hshort := (limited_unrolled beyond hd closer seen cursor hc).1
  have hdeep := (limited_unrolled beyond (Nat.lt_succ_of_le hl) closer seen cursor hc).1
  have hlong :=
    (limited_unrolled beyond (Nat.lt_succ_self limit) closer seen cursor (hc.trans hl)).1
  exact hlong.trans (hdeep.symm.trans hshort)

def through (scan : Char → List Tree → Parser (List Tree)) (closer : Char) :
    Parser (List Tree) := do
  let trees ← scan closer []
  return trees ++ [← expect (.symbol closer)]

def classBy (scan : Char → List Tree → Parser (List Tree)) : Parser Tree := do
  let children ← Production.wholeClass.read (scan · [])
  return .node .class_ (children ++ (← comments))

theorem classTree_eq_classBy (cursor : Cursor) :
    classTree cursor = classBy (limited cursor.unread.length) cursor := by
  rw [classTree_apply, classBy]
  simp only [limited_nil]

section Readers

variable {scan scan' : Char → List Tree → Parser (List Tree)}

theorem through_coincides (h : ∀ closer, Coincides limit (scan closer []) (scan' closer []))
    (closer : Char) : Coincides limit (through scan closer) (through scan' closer) := by
  apply (h closer).bind
  intro trees
  apply (Coincides.refl (expect_conserves _)).bind
  intro leaf
  exact .pure _

theorem classBy_coincides (h : ∀ closer, Coincides limit (scan closer []) (scan' closer [])) :
    Coincides limit (classBy scan) (classBy scan') := by
  apply (production_coincides h _).bind
  intro children
  apply (Coincides.refl comments_conserves).bind
  intro after
  exact .pure _

end Readers

end Parser

end Jack
