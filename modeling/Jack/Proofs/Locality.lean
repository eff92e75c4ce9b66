import Jack.Proofs.Recognition
import Jack.Proofs.SessionConservation

namespace Jack

/-- A word with a token that is no comment, so that its first such token is that of every list it
starts. -/
def Settled (word : List Token) : Prop := ∃ t ∈ word, ¬ t.isComment

def withUnread (rest : List Token) :
    EStateM.Result ParseError Cursor α → EStateM.Result ParseError Cursor α
  | .ok a after => .ok a { after with unread := rest }
  | .error e after => .error e { after with unread := rest }

/-- The ends of two runs on a word, the first with `x` after it and the second with `y`. When the
first run ends in a settled part of the word, the second one ends there too, with the same value or
error and the same choices. -/
def Local (x y : List Token) (first second : EStateM.Result ParseError Cursor α) : Prop :=
  ∀ left, (lastCursor first).unread = left ++ x → Settled left →
    second = withUnread (left ++ y) first

theorem Settled.mono (h : Settled left) (hs : left <:+ word) : Settled word := by
  obtain ⟨t, ht, hc⟩ := h
  exact ⟨t, hs.subset ht, hc⟩

theorem Settled.exists_cons (h : Settled word) : ∃ head rest, word = head :: rest := by
  obtain ⟨t, ht, -⟩ := h
  exact List.exists_cons_of_ne_nil (List.ne_nil_of_mem ht)

theorem Settled.split (h : Settled word) :
    ∃ before t rest, word = before ++ t :: rest ∧ (∀ c ∈ before, c.isComment) ∧ ¬ t.isComment := by
  induction word with
  | nil =>
    obtain ⟨t, ht, -⟩ := h
    cases ht
  | cons head word ih =>
    by_cases hh : head.isComment
    · have hw : Settled word := by
        obtain ⟨t, ht, hc⟩ := h
        cases ht with
        | head => exact absurd hh hc
        | tail _ ht => exact ⟨t, ht, hc⟩
      obtain ⟨before, t, rest, rfl, hb, ht⟩ := ih hw
      exact ⟨head :: before, t, rest, rfl, List.forall_mem_cons.2 ⟨hh, hb⟩, ht⟩
    · exact ⟨[], head, word, rfl, by simp, hh⟩

theorem Settled.significant?_append (h : Settled word) (x : List Token) :
    Parser.significant? (word ++ x) = Parser.significant? word := by
  obtain ⟨before, t, rest, rfl, hb, ht⟩ := h.split
  rw [List.append_assoc, List.cons_append, significant?_comments hb, significant?_comments hb,
    significant?_cons ht, significant?_cons ht]

theorem suffix_of_append (h : left ++ x <:+ word ++ x) : left <:+ word := by
  obtain ⟨front, h⟩ := h
  rw [← List.append_assoc] at h
  exact ⟨front, List.append_cancel_right h⟩

theorem Local.ending {first second : EStateM.Result ParseError Cursor α}
    (hl : (lastCursor first).unread = left ++ x) (h : second = withUnread (left ++ y) first) :
    Local x y first second := by
  intro left' hl' _
  obtain rfl := List.append_cancel_right (hl.symm.trans hl')
  exact h

theorem Choice.of_eq_of_stops (h : Choice.of head next = .closer ∨ Choice.of head next = .forbidden)
    (other : Option Token) : Choice.of head other = Choice.of head next := by
  obtain ⟨lexeme, line⟩ := head
  cases lexeme with
  | identifier name =>
    exfalso
    change ofName next = _ ∨ ofName next = _ at h
    cases next with
    | none => simp [ofName] at h
    | some t =>
      rw [ofName] at h
      split at h
      · simp at h
      · split at h <;> simp at h
  | keyword | symbol | integer | string | comment => rfl

namespace Parser

/-- Two readers that only take tokens, and whose runs are local when at most `limit` and `limit'`
tokens are unread. -/
structure Localizes (limit limit' : Nat) (p q : Parser α) : Prop where
  suffix : ∀ cursor, (lastCursor (p cursor)).unread <:+ cursor.unread
  runs : ∀ word x y trace, (word ++ x).length ≤ limit → (word ++ y).length ≤ limit' →
    Local x y (p ⟨word ++ x, trace⟩) (q ⟨word ++ y, trace⟩)

namespace Localizes

theorem of_settled {p q : Parser α}
    (hs : ∀ cursor, (lastCursor (p cursor)).unread <:+ cursor.unread)
    (h : ∀ word x y trace, Settled word → (word ++ x).length ≤ limit → (word ++ y).length ≤ limit' →
      Local x y (p ⟨word ++ x, trace⟩) (q ⟨word ++ y, trace⟩)) :
    Localizes limit limit' p q := by
  refine ⟨hs, fun word x y trace hx hy left hl hleft => ?_⟩
  have hw := hs ⟨word ++ x, trace⟩
  rw [hl] at hw
  exact h word x y trace (hleft.mono (suffix_of_append hw)) hx hy left hl hleft

theorem pure (a : α) : Localizes limit limit' (Pure.pure a) (Pure.pure a) where
  suffix cursor := cursor.unread.suffix_refl
  runs _ _ _ _ _ _ := .ending rfl rfl

theorem fail (e : ParseError) :
    Localizes limit limit' (Parser.fail e : Parser α) (Parser.fail e) where
  suffix cursor := cursor.unread.suffix_refl
  runs _ _ _ _ _ _ := .ending rfl rfl

theorem suffix_bind {p : Parser α} {f : α → Parser β}
    (hp : (lastCursor (p cursor)).unread <:+ input)
    (hf : ∀ a mid, (lastCursor (f a mid)).unread <:+ mid.unread) :
    (lastCursor ((p >>= f) cursor)).unread <:+ input := by
  cases hr : p cursor with
  | error e mid =>
    rw [bind_error f hr]
    rwa [hr] at hp
  | ok a mid =>
    rw [bind_ok f hr]
    rw [hr] at hp
    exact (hf a mid).trans hp

theorem bind_of_run {p q : Parser α} {f g : α → Parser β}
    (hs : (lastCursor (p c)).unread <:+ word ++ x) (h : Local x y (p c) (q d))
    (hx : (word ++ x).length ≤ limit) (hy : (word ++ y).length ≤ limit')
    (hf : ∀ a, Localizes limit limit' (f a) (g a)) :
    Local x y ((p >>= f) c) ((q >>= g) d) := by
  intro left hl hleft
  cases hp : p c with
  | error e mid =>
    rw [bind_error f hp] at hl ⊢
    rw [hp] at h
    exact bind_error g (h left hl hleft)
  | ok a mid =>
    rw [bind_ok f hp] at hl ⊢
    rw [hp] at h hs
    obtain ⟨unread, trace⟩ := mid
    -- The second part only takes tokens, so that the first part has ended in the word as well.
    obtain ⟨front, hu⟩ := (hf a).suffix ⟨unread, trace⟩
    rw [hl, ← List.append_assoc] at hu
    dsimp only [lastCursor] at hu hs
    subst hu
    have hw : front ++ left <:+ word := suffix_of_append hs
    have hm : Settled (front ++ left) := hleft.mono (List.suffix_append front left)
    rw [bind_ok g (h _ rfl hm)]
    have hlen := hw.length_le
    rw [List.length_append] at hx hy
    refine (hf a).runs _ _ _ _ ?_ ?_ left hl hleft
    · rw [List.length_append]
      omega
    · rw [List.length_append]
      omega

theorem bind {p q : Parser α} {f g : α → Parser β} (h : Localizes limit limit' p q)
    (hf : ∀ a, Localizes limit limit' (f a) (g a)) :
    Localizes limit limit' (p >>= f) (q >>= g) where
  suffix cursor := suffix_bind (h.suffix cursor) fun a mid => (hf a).suffix mid
  runs word x y trace hx hy :=
    bind_of_run (h.suffix _) (h.runs word x y trace hx hy) hx hy hf

theorem ofExcept (x : Except ParseError α) :
    Localizes limit limit' (Parser.ofExcept x) (Parser.ofExcept x) := by
  cases x with
  | ok a => exact .pure a
  | error e => exact .fail e

theorem comments : Localizes limit limit' Parser.comments Parser.comments := by
  apply of_settled
  · exact fun cursor => List.dropWhile_suffix _
  intro word x y trace hw _ _
  obtain ⟨before, t, rest, rfl, hb, ht⟩ := hw.split
  have hc (ahead : List Token) : Parser.comments ⟨before ++ t :: rest ++ ahead, trace⟩ =
      .ok (leaves before) ⟨t :: rest ++ ahead, trace⟩ := by
    have hh : ∀ u, (t :: rest ++ ahead).head? = some u → ¬ u.isComment := by
      rintro _ ⟨⟩
      exact ht
    rw [comments_apply, List.append_assoc, takeWhile_append_of_head hb hh,
      dropWhile_append_of_head hb hh, leaves]
  rw [hc, hc]
  exact .ending rfl rfl

theorem expect (expected : Expected) :
    Localizes limit limit' (Parser.expect expected) (Parser.expect expected) := by
  apply of_settled
  · rintro ⟨_ | ⟨t, rest⟩, trace⟩
    · exact List.suffix_refl _
    · rw [expect_cons]
      split
      · exact List.suffix_cons t rest
      · exact List.suffix_refl _
  intro word x y trace hw _ _
  obtain ⟨t, rest, rfl⟩ := hw.exists_cons
  rw [List.cons_append, List.cons_append, expect_cons, expect_cons]
  split
  · exact .ending rfl rfl
  · exact .ending (List.cons_append ..).symm rfl

theorem optionally {part part' : Parser (List Tree)} (h : Localizes limit limit' part part') :
    Localizes limit limit' (optionally sign part) (Parser.optionally sign part') := by
  apply of_settled
  · intro cursor
    rw [optionally_apply]
    split
    · exact h.suffix cursor
    · exact List.suffix_refl _
  intro word x y trace hw hx hy
  rw [optionally_apply, optionally_apply, hw.significant?_append, hw.significant?_append]
  split
  · exact h.runs word x y trace hx hy
  · exact .ending rfl rfl

end Localizes

variable {left right : Char → Parser (List Tree)}

theorem production_localizes
    (h : ∀ closer, Localizes limit limit' (left closer) (right closer)) (production : Production) :
    Localizes limit limit' (production.read left) (production.read right) := by
  induction production with
  | done => exact .pure _
  | token expected next ih =>
    apply Localizes.comments.bind
    intro before
    apply (Localizes.expect expected).bind
    intro leaf
    apply ih.bind
    intro more
    exact .pure _
  | run closer layout next ih =>
    apply (h closer).bind
    intro items
    apply (Localizes.ofExcept _).bind
    intro arranged
    apply (Localizes.expect _).bind
    intro leaf
    apply ih.bind
    intro more
    exact .pure _
  | optional sign part next ihp ihn =>
    apply ihp.optionally.bind
    intro front
    apply ihn.bind
    intro more
    exact .pure _
  | nested construct part next ihp ihn =>
    apply Localizes.comments.bind
    intro before
    apply ihp.bind
    intro children
    apply ihn.bind
    intro more
    exact .pure _

theorem item_localizes (h : ∀ closer, Localizes limit limit' (left closer) (right closer))
    (hc : ¬ (Choice.of head (significant? (rest ++ x)) = .closer ∨
      Choice.of head (significant? (rest ++ x)) = .forbidden))
    (hx : (rest ++ x).length ≤ limit) (hy : (rest ++ y).length ≤ limit')
    (cursor cursor' : Cursor) (ht : cursor'.trace = cursor.trace) :
    (lastCursor (item left head (rest ++ x) cursor)).unread <:+ rest ++ x ∧
      Local x y (item left head (rest ++ x) cursor) (item right head (rest ++ y) cursor') := by
  -- A name is looked at together with the next token, which is in the word when it is settled.
  have hn (hr : Settled rest) : Choice.of head (significant? (rest ++ y)) =
      Choice.of head (significant? (rest ++ x)) := by
    rw [hr.significant?_append, hr.significant?_append]
  generalize hs : Choice.of head (significant? (rest ++ x)) = choice at hc hn
  cases choice with
  | closer => exact absurd (.inl rfl) hc
  | forbidden => exact absurd (.inr rfl) hc
  | terminal =>
    rw [item_terminal hs]
    refine ⟨List.suffix_refl _, fun word hl hw => ?_⟩
    obtain rfl : rest = word := List.append_cancel_right hl
    rw [item_terminal (hn hw), withUnread, ht]
  | opens rule =>
    have hp : Localizes limit limit'
        (do return some (rule.build head (← rule.production.read left)))
        (do return some (rule.build head (← rule.production.read right))) :=
      (production_localizes h rule.production).bind fun children => .pure _
    rw [item_opens hs]
    have hsuffix := hp.suffix ⟨rest ++ x, cursor.trace.push (.opened rule head.line)⟩
    refine ⟨hsuffix, fun word hl hw => ?_⟩
    rw [hl] at hsuffix
    rw [item_opens (hn (hw.mono (suffix_of_append hsuffix))), ht]
    exact hp.runs _ _ _ _ hx hy word hl hw

theorem items_stop (hh : ¬ head.isSymbol closer)
    (hc : Choice.of head (significant? (rest ++ x)) = .closer ∨
      Choice.of head (significant? (rest ++ x)) = .forbidden) (trace : Array Dispatch) :
    Local x y (items (limit + 1) closer ⟨head :: (rest ++ x), trace⟩)
      (items (limit' + 1) closer ⟨head :: (rest ++ y), trace⟩) := by
  have hl : head :: (rest ++ x) = head :: rest ++ x := rfl
  have hn := Choice.of_eq_of_stops hc (significant? (rest ++ y))
  rw [items_cons limit hh, items_cons limit' hh]
  rcases hc with hc | hc
  · rw [hc] at hn
    rw [bind_ok _ (item_closer hc _), bind_ok _ (item_closer hn _)]
    exact .ending hl rfl
  · rw [hc] at hn
    rw [bind_error _ (item_forbidden hc _), bind_error _ (item_forbidden hn _)]
    exact .ending hl rfl

/-- Runs of items are local. The induction is on the tokens ahead of the first run, and the second
one moves along with it. -/
theorem items_localizes (limit limit' : Nat) (closer : Char) :
    Localizes limit limit' (items limit closer) (items limit' closer) := by
  induction limit generalizing limit' closer with
  | zero =>
    apply Localizes.of_settled (items_conserves 0 closer).suffix
    intro word x y trace hw hx
    obtain ⟨head, rest, rfl⟩ := hw.exists_cons
    cases hx
  | succ limit ih =>
    apply Localizes.of_settled (items_conserves (limit + 1) closer).suffix
    intro word x y trace hw hx hy
    obtain ⟨head, rest, rfl⟩ := hw.exists_cons
    rw [List.cons_append] at hx hy ⊢
    rw [List.cons_append]
    cases limit' with
    | zero => cases hy
    | succ limit' =>
      by_cases hh : head.isSymbol closer
      · rw [items_closer limit hh, items_closer limit' hh]
        exact .ending (List.cons_append ..).symm rfl
      by_cases hc : Choice.of head (significant? (rest ++ x)) = .closer ∨
          Choice.of head (significant? (rest ++ x)) = .forbidden
      · exact items_stop hh hc trace
      have hx := Nat.le_of_succ_le_succ hx
      have hy := Nat.le_of_succ_le_succ hy
      have hitem := item_localizes (ih limit') hc hx hy
        ⟨head :: (rest ++ x), trace⟩ ⟨head :: (rest ++ y), trace⟩ rfl
      rw [items_cons limit hh, items_cons limit' hh]
      apply Localizes.bind_of_run hitem.1 hitem.2 hx hy
      intro found
      cases found with
      | none => exact .fail _
      | some trees =>
        apply (ih limit' closer).bind
        intro more
        exact .pure _

/-- A class is read in the same way on two lists with a common word, up to the last token of the
word that is no comment. -/
theorem classTree_local (word x y : List Token) (trace : Array Dispatch) :
    Local x y (classTree ⟨word ++ x, trace⟩) (classTree ⟨word ++ y, trace⟩) := by
  rw [classTree_apply, classTree_apply]
  have hi := items_localizes (word ++ x).length (word ++ y).length
  have hc := (production_localizes hi Production.wholeClass).bind fun children =>
    Localizes.comments.bind fun after =>
      .pure (Tree.node .class_ (children ++ after))
  exact hc.runs word x y trace (Nat.le_refl _) (Nat.le_refl _)

def finish (tree : Tree) : Parser Tree := do
  match ← unread with
  | [] => return tree
  | t :: _ => fail (.trailingInput t)

theorem finish_localizes (tree : Tree) :
    Localizes limit limit' (finish tree) (finish tree) := by
  apply Localizes.of_settled
  · rintro ⟨_ | ⟨t, rest⟩, trace⟩ <;> exact List.suffix_refl _
  intro word x y trace hw _ _
  obtain ⟨t, rest, rfl⟩ := hw.exists_cons
  exact .ending rfl rfl

theorem program_local (word x y : List Token) (trace : Array Dispatch) :
    Local x y (program ⟨word ++ x, trace⟩) (program ⟨word ++ y, trace⟩) := by
  change Local x y ((classTree >>= finish) _) ((classTree >>= finish) _)
  exact Localizes.bind_of_run (classTree_conserves.suffix _) (classTree_local word x y trace)
    (Nat.le_refl _) (Nat.le_refl _) finish_localizes

end Parser

end Jack
