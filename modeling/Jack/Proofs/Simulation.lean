import Jack.Proofs.Evaluation
import Jack.Proofs.Revision

namespace Jack

theorem Choice.of_comment {head : Token} (h : head.isComment) (next : Option Token) :
    Choice.of head next = .terminal := by
  obtain ⟨text, ht⟩ := Token.isComment_iff.1 h
  simp only [Choice.of, ht]

theorem Choice.of_eq (head : Token) (next : Option Token) :
    Choice.of head next =
      match head.keyword?, head.symbol? with
      | some word, _ => ofKeyword word
      | none, some char => ofSymbol char
      | none, none => if head.isIdentifier then ofName next else .terminal := by
  obtain ⟨lexeme, line⟩ := head
  cases lexeme <;> rfl

namespace Revision

variable (r : Revision)

theorem significant?_tokens (ts : List Token) :
    Parser.significant? (r.tokens ts) = (Parser.significant? ts).map r.change := by
  rw [Parser.significant?, tokens, List.find?_map, List.find?_filter, Parser.significant?]
  congr 2
  funext t
  simp only [Function.comp_apply, (r.alike t).isComment]
  by_cases h : r.keep t
  · simp [h]
  · simp [r.isComment_of_drop h]

theorem choice_change (head : Token) (next : Option Token) :
    Choice.of (r.change head) (next.map r.change) = Choice.of head next := by
  have hn : Choice.ofName (next.map r.change) = Choice.ofName next := by
    cases next with
    | none => rfl
    | some t => simp only [Option.map_some, Choice.ofName, (r.alike t).isSymbol]
  rw [Choice.of_eq, Choice.of_eq, (r.alike head).keyword, (r.alike head).symbol,
    (r.alike head).isIdentifier, hn]

/-- Two cursors, where the tokens ahead of the second are the revised tokens ahead of the first. At
most `limit` and `limit'` tokens are unread. -/
structure Aligned (limit limit' : Nat) (c d : Cursor) : Prop where
  unread : d.unread = r.tokens c.unread
  left : c.unread.length ≤ limit
  right : d.unread.length ≤ limit'

structure Ready (limit limit' : Nat) (c d : Cursor) : Prop extends r.Aligned limit limit' c d where
  head : ∀ t, c.unread.head? = some t → ¬ t.isComment

/-- The ends of two runs: related values, or an error and the revised error, where the second run
has stopped at the revised tokens in front of which the first one has. -/
inductive Follows (value : α → α → Prop) (post : Cursor → Cursor → Prop) :
    EStateM.Result ParseError Cursor α → EStateM.Result ParseError Cursor α → Prop where
  | ok (hv : value a b) (hp : post c d) : Follows value post (.ok a c) (.ok b d)
  | error (hu : d.unread = r.tokens c.unread) :
      Follows value post (.error e c) (.error (r.error e) d)

def Simulates (pre post : Cursor → Cursor → Prop) (value : α → α → Prop) (p q : Parser α) : Prop :=
  ∀ c d, pre c d → r.Follows value post (p c) (q d)

section Rules

variable {r} {pre mid post : Cursor → Cursor → Prop}

theorem Follows.bind {value : α → α → Prop} {value' : β → β → Prop} {p q : Parser α}
    {f g : α → Parser β} (h : r.Follows value mid (p c) (q d))
    (hf : ∀ a b, value a b → r.Simulates mid post value' (f a) (g b)) :
    r.Follows value' post ((p >>= f) c) ((q >>= g) d) := by
  generalize hp : p c = left at h
  generalize hq : q d = right at h
  cases h with
  | ok hv hm =>
    rw [Parser.bind_ok f hp, Parser.bind_ok g hq]
    exact hf _ _ hv _ _ hm
  | error hu =>
    rw [Parser.bind_error f hp, Parser.bind_error g hq]
    exact .error hu

theorem Simulates.bind {value : α → α → Prop} {value' : β → β → Prop} {p q : Parser α}
    {f g : α → Parser β} (h : r.Simulates pre mid value p q)
    (hf : ∀ a b, value a b → r.Simulates mid post value' (f a) (g b)) :
    r.Simulates pre post value' (p >>= f) (q >>= g) :=
  fun c d hp => (h c d hp).bind hf

theorem Simulates.pure {value : α → α → Prop} (h : value a b) :
    r.Simulates pre pre value (Pure.pure a) (Pure.pure b) :=
  fun _ _ hp => .ok h hp

theorem Ready.weaken (h : r.Ready limit limit' c d) (hl : limit ≤ more) (hr : limit' ≤ more') :
    r.Ready more more' c d :=
  ⟨⟨h.unread, Nat.le_trans h.left hl, Nat.le_trans h.right hr⟩, h.head⟩

end Rules

theorem comments_tokens (ts : List Token) :
    (r.tokens ts).takeWhile Token.isComment = r.tokens (ts.takeWhile Token.isComment) ∧
      (r.tokens ts).dropWhile Token.isComment = r.tokens (ts.dropWhile Token.isComment) := by
  induction ts with
  | nil => exact ⟨rfl, rfl⟩
  | cons t ts ih =>
    rw [List.takeWhile_cons, List.dropWhile_cons]
    by_cases h : r.keep t
    · rw [r.tokens_cons_of_keep h, List.takeWhile_cons, List.dropWhile_cons, (r.alike t).isComment]
      split
      · rw [r.tokens_cons_of_keep h, ih.1, ih.2]
        exact ⟨rfl, rfl⟩
      · rw [r.tokens_cons_of_keep h]
        exact ⟨rfl, rfl⟩
    · rw [if_pos (r.isComment_of_drop h), if_pos (r.isComment_of_drop h),
        r.tokens_cons_of_drop h, r.tokens_cons_of_drop h]
      exact ih

def Forests (trees trees' : List Tree) : Prop := trees' = r.forest trees

def Trees (tree tree' : Tree) : Prop := r.tree tree = [tree']

variable {r}

theorem comments_simulates :
    r.Simulates (r.Aligned limit limit') (r.Ready limit limit') r.Forests Parser.comments
      Parser.comments := by
  intro c d h
  obtain ⟨ht, hd⟩ := r.comments_tokens c.unread
  rw [Parser.comments_apply, Parser.comments_apply, h.unread, ht, hd]
  have hl (ts : List Token) : (ts.dropWhile Token.isComment).length ≤ ts.length :=
    (List.dropWhile_suffix _).length_le
  apply Follows.ok
  · exact (r.forest_leaves _).symm
  · refine ⟨⟨rfl, Nat.le_trans (hl _) h.left, ?_⟩, ?_⟩
    · rw [← hd, ← h.unread]
      exact Nat.le_trans (hl _) h.right
    · exact fun t => Parser.not_isComment_of_dropWhile

theorem expect_simulates (expected : Expected) :
    r.Simulates (r.Ready limit limit') (r.Aligned limit limit') r.Trees (Parser.expect expected)
      (Parser.expect expected) := by
  rintro ⟨ts, trace⟩ ⟨_, trace'⟩ ⟨⟨hu, hl, hr⟩, hh⟩
  dsimp only at hu hl hr hh
  subst hu
  cases ts with
  | nil => exact .error rfl
  | cons t rest =>
    have hk : r.keep t := r.keep_of_not_comment (hh t rfl)
    rw [r.tokens_cons_of_keep hk] at hr ⊢
    rw [Parser.expect_cons, Parser.expect_cons, (r.alike t).accepts]
    split
    · apply Follows.ok
      · exact r.tree_leaf_of_keep hk
      · exact ⟨rfl, Nat.le_of_succ_le hl, Nat.le_of_succ_le hr⟩
    · exact .error (r.tokens_cons_of_keep hk rest).symm

theorem ofExcept_simulates (x : Except ParseError (List Tree)) :
    r.Simulates (r.Ready limit limit') (r.Ready limit limit') r.Forests (Parser.ofExcept x)
      (Parser.ofExcept (r.outcome x)) := by
  intro c d h
  cases x with
  | ok trees => exact .ok rfl h
  | error e => exact .error h.unread

theorem optionally_simulates {part part' : Parser (List Tree)}
    (h : r.Simulates (r.Aligned limit limit') (r.Aligned limit limit') r.Forests part part') :
    r.Simulates (r.Aligned limit limit') (r.Aligned limit limit') r.Forests
      (Parser.optionally sign part) (Parser.optionally sign part') := by
  intro c d ha
  have hs : (Parser.significant? d.unread).any sign.accepts =
      (Parser.significant? c.unread).any sign.accepts := by
    rw [ha.unread, significant?_tokens, Option.any_map]
    congr 1
    funext t
    exact (r.alike t).accepts sign
  rw [Parser.optionally_apply, Parser.optionally_apply, hs]
  split
  · exact h c d ha
  · exact .ok rfl ha

theorem production_simulates {left right : Char → Parser (List Tree)}
    (h : ∀ closer, r.Simulates (r.Aligned limit limit') (r.Ready limit limit') r.Forests
      (left closer) (right closer)) (production : Production) :
    r.Simulates (r.Aligned limit limit') (r.Aligned limit limit') r.Forests
      (production.read left) (production.read right) := by
  induction production with
  | done => exact .pure rfl
  | token expected next ih =>
    apply comments_simulates.bind
    intro before before' hb
    apply (expect_simulates expected).bind
    intro leaf leaf' hl
    apply ih.bind
    intro more more' hm
    apply Simulates.pure
    rw [Forests, forest_append, forest_cons, hl, hb, hm]
    rfl
  | run closer layout next ih =>
    apply (h closer).bind
    intro trees trees' ht
    obtain rfl := ht
    rw [arrange_forest]
    apply (ofExcept_simulates _).bind
    intro arranged arranged' ha
    apply (expect_simulates _).bind
    intro leaf leaf' hl
    apply ih.bind
    intro more more' hm
    apply Simulates.pure
    rw [Forests, forest_append, forest_cons, hl, ha, hm]
    rfl
  | optional sign part next ihp ihn =>
    apply (optionally_simulates ihp).bind
    intro front front' hf
    apply ihn.bind
    intro more more' hm
    apply Simulates.pure
    rw [Forests, forest_append, hf, hm]
  | nested construct part next ihp ihn =>
    apply comments_simulates.bind
    intro before before' hb
    apply Simulates.bind (fun c d hr => ihp c d hr.toAligned)
    intro children children' hc
    apply ihn.bind
    intro more more' hm
    apply Simulates.pure
    rw [Forests, forest_append, forest_cons, tree_node, hb, hc, hm]
    rfl

def Found (found found' : Option (List Tree)) : Prop := found' = found.map r.forest

theorem item_simulates {left right : Char → Parser (List Tree)}
    (h : ∀ closer, r.Simulates (r.Aligned limit limit') (r.Ready limit limit') r.Forests
      (left closer) (right closer)) (hk : r.keep head)
    (hc : Choice.of head (Parser.significant? rest) ≠ .closer) (hl : rest.length ≤ limit)
    (hr : (r.tokens rest).length ≤ limit') (trace trace' : Array Dispatch) :
    r.Follows r.Found (r.Aligned limit limit')
      (Parser.item left head rest ⟨head :: rest, trace⟩)
      (Parser.item right (r.change head) (r.tokens rest) ⟨r.tokens (head :: rest), trace'⟩) := by
  have hn := r.choice_change head (Parser.significant? rest)
  rw [← significant?_tokens] at hn
  generalize hs : Choice.of head (Parser.significant? rest) = choice at hc hn
  cases choice with
  | closer => exact absurd rfl hc
  | forbidden =>
    rw [Parser.item_forbidden hs, Parser.item_forbidden hn]
    exact .error rfl
  | terminal =>
    rw [Parser.item_terminal hs, Parser.item_terminal hn]
    refine .ok ?_ ⟨rfl, hl, hr⟩
    rw [Found, Option.map_some, forest_cons, r.tree_leaf_of_keep hk]
    rfl
  | opens rule =>
    rw [Parser.item_opens hs, Parser.item_opens hn]
    have hb (children children' : List Tree) (hc : r.Forests children children') :
        r.Found (some (rule.build head children))
          (some (rule.build (r.change head) children')) := by
      rw [Found, hc, Option.map_some, r.forest_build hk]
    have hp := (production_simulates h rule.production).bind fun _ _ hc => .pure (hb _ _ hc)
    exact hp _ _ ⟨rfl, hl, hr⟩

/-- A comment that is left out is an item of the first run only. -/
theorem items_drop (h : r.Simulates (r.Aligned limit limit') (r.Ready limit limit') r.Forests
      (Parser.items limit closer) (Parser.items limit' closer)) (hk : ¬ r.keep head) :
    r.Simulates (r.Aligned limit limit') (r.Ready (limit + 1) limit') r.Forests
      (do return [.leaf head] ++ (← Parser.items limit closer)) (Parser.items limit' closer) := by
  rw [← bind_pure (Parser.items limit' closer)]
  apply h.bind
  intro more more' hm c d hr
  apply Follows.ok
  · rw [Forests, forest_append, forest_cons, r.tree_leaf_of_drop hk, hm]
    rfl
  · exact hr.weaken (Nat.le_succ _) (Nat.le_refl _)

/-- Both runs start with a token that is kept: they stop at a closer, or read one item and go on. -/
theorem items_keep (h : ∀ closer, r.Simulates (r.Aligned limit limit') (r.Ready limit limit')
      r.Forests (Parser.items limit closer) (Parser.items limit' closer))
    (hk : r.keep head) (hl : rest.length ≤ limit) (hr : (r.tokens rest).length ≤ limit')
    (closer : Char) (trace trace' : Array Dispatch) :
    r.Follows r.Forests (r.Ready (limit + 1) (limit' + 1))
      (Parser.items (limit + 1) closer ⟨head :: rest, trace⟩)
      (Parser.items (limit' + 1) closer ⟨r.tokens (head :: rest), trace'⟩) := by
  have ht := r.tokens_cons_of_keep hk rest
  have hs := (r.alike head).isSymbol closer
  by_cases hh : head.isSymbol closer
  · have hh' : (r.change head).isSymbol closer := by rwa [hs]
    rw [Parser.items_closer limit hh, ht, Parser.items_closer limit' hh']
    apply Follows.ok
    · rfl
    · have ha : r.Aligned (limit + 1) (limit' + 1) ⟨head :: rest, trace⟩
          ⟨r.change head :: r.tokens rest, trace'⟩ :=
        ⟨ht.symm, Nat.succ_le_succ hl, Nat.succ_le_succ hr⟩
      refine ⟨ha, ?_⟩
      rintro _ ⟨⟩
      exact Token.not_isComment_of_isSymbol hh
  have hh' : ¬ (r.change head).isSymbol closer := by rwa [hs]
  rw [Parser.items_cons limit hh, ht, Parser.items_cons limit' hh', ← ht]
  by_cases hc : Choice.of head (Parser.significant? rest) = .closer
  · have hc' := r.choice_change head (Parser.significant? rest)
    rw [← significant?_tokens, hc] at hc'
    rw [Parser.bind_ok _ (Parser.item_closer hc _), Parser.bind_ok _ (Parser.item_closer hc' _)]
    exact .error rfl
  apply (item_simulates h hk hc hl hr trace trace').bind
  intro found found' hf
  obtain rfl := hf
  cases found with
  | none => exact fun c d ha => .error ha.unread
  | some trees =>
    apply (h closer).bind
    intro more more' hm c d hd
    apply Follows.ok
    · rw [Forests, forest_append, hm]
    · exact hd.weaken (Nat.le_succ _) (Nat.le_succ _)

/-- Runs of items follow each other. The induction is on the tokens ahead of the first run, since
the second does not move at a comment that is left out. -/
theorem items_simulates (limit limit' : Nat) (closer : Char) :
    r.Simulates (r.Aligned limit limit') (r.Ready limit limit') r.Forests
      (Parser.items limit closer) (Parser.items limit' closer) := by
  induction limit generalizing limit' closer with
  | zero =>
    rintro ⟨ts, trace⟩ ⟨_, trace'⟩ ⟨hu, hl, hr⟩
    dsimp only at hu hl hr
    subst hu
    obtain rfl := List.length_eq_zero_iff.1 (Nat.le_zero.1 hl)
    rw [Parser.items_nil, tokens_nil, Parser.items_nil]
    exact .error rfl
  | succ limit ih =>
    rintro ⟨ts, trace⟩ ⟨_, trace'⟩ ⟨hu, hl, hr⟩
    dsimp only at hu hl hr
    subst hu
    cases ts with
    | nil =>
      rw [Parser.items_nil, tokens_nil, Parser.items_nil]
      exact .error rfl
    | cons head rest =>
      have hl := Nat.le_of_succ_le_succ hl
      by_cases hk : r.keep head
      · rw [r.tokens_cons_of_keep hk] at hr
        cases limit' with
        | zero => cases hr
        | succ limit' =>
          exact items_keep (ih limit') hk hl (Nat.le_of_succ_le_succ hr) closer trace trace'
      · have hcomment := r.isComment_of_drop hk
        have hh : ¬ head.isSymbol closer := fun h => Token.not_isComment_of_isSymbol h hcomment
        have hc := Choice.of_comment hcomment (Parser.significant? rest)
        rw [r.tokens_cons_of_drop hk] at hr ⊢
        rw [Parser.items_cons limit hh, Parser.bind_ok _ (Parser.item_terminal hc _)]
        exact items_drop (ih limit' closer) hk _ _ ⟨rfl, hl, hr⟩

theorem classTree_follows (hu : d.unread = r.tokens c.unread) :
    r.Follows r.Trees (r.Ready c.unread.length d.unread.length) (Parser.classTree c)
      (Parser.classTree d) := by
  rw [Parser.classTree_apply, Parser.classTree_apply]
  have hi := items_simulates (r := r) c.unread.length d.unread.length
  have hp := production_simulates hi Production.wholeClass
  apply Follows.bind (hp c d ⟨hu, Nat.le_refl _, Nat.le_refl _⟩)
  intro children children' hc
  apply comments_simulates.bind
  intro after after' ha
  apply Simulates.pure
  rw [Trees, tree_node, forest_append, hc, ha]

theorem program_follows (hu : d.unread = r.tokens c.unread) :
    r.Follows r.Trees (fun c d => c.unread = [] ∧ d.unread = []) (Parser.program c)
      (Parser.program d) := by
  apply Follows.bind (classTree_follows hu)
  intro tree tree' ht
  rintro ⟨ts, trace⟩ ⟨_, trace'⟩ ⟨⟨hu, -, -⟩, hh⟩
  dsimp only at hu hh
  subst hu
  cases ts with
  | nil => exact .ok ht ⟨rfl, rfl⟩
  | cons t rest =>
    have hk : r.keep t := r.keep_of_not_comment (hh t rfl)
    have hf := r.tokens_cons_of_keep hk rest
    rw [hf]
    exact .error hf.symm

end Revision

/-- Parsing revised tokens gives the revised tree, or the revised error. -/
theorem parse_revision (r : Revision) (ts : List Token) :
    match (parse ts).result with
    | .ok tree => ∃ tree', r.tree tree = [tree'] ∧ (parse (r.tokens ts)).result = .ok tree'
    | .error e => (parse (r.tokens ts)).result = .error (r.error e) := by
  have h := r.program_follows (c := ⟨ts, #[]⟩) (d := ⟨r.tokens ts, #[]⟩) rfl
  rw [parse_result, parse_result, Parser.answer, Parser.answer]
  generalize Parser.program ⟨ts, #[]⟩ = left at h
  generalize Parser.program ⟨r.tokens ts, #[]⟩ = right at h
  cases h with
  | ok hv hp => exact ⟨_, hv, rfl⟩
  | error hu => rfl

end Jack
