import Jack.Proofs.Evaluation
import Jack.Proofs.ProductionDerivation

namespace Jack

def Production.closers : Production → List Char
  | .done => []
  | .token _ next => next.closers
  | .run closer _ next => closer :: next.closers
  | .optional _ part next | .nested _ part next => part.closers ++ next.closers

theorem Rule.closers (rule : Rule) :
    ∀ closer ∈ rule.production.closers, Choice.ofSymbol closer = .closer := by
  have h : rule.production.closers.all fun closer =>
      decide (Choice.ofSymbol closer = .closer) := by
    cases rule <;> rfl
  simpa using h

namespace Parser

theorem bind_eq_ok {p : Parser α} {f : α → Parser β} (h : (p >>= f) cursor = .ok b after) :
    ∃ a mid, p cursor = .ok a mid ∧ f a mid = .ok b after := by
  cases hp : p cursor with
  | error e mid =>
    rw [bind_error f hp] at h
    cases h
  | ok a mid =>
    rw [bind_ok f hp] at h
    exact ⟨a, mid, rfl, h⟩

theorem comments_eq_ok (h : comments cursor = .ok trees after) :
    ∃ before, trees = leaves before ∧ (∀ c ∈ before, c.isComment) ∧
      cursor.unread = before ++ after.unread ∧
      ∀ t, after.unread.head? = some t → ¬ t.isComment := by
  cases h
  exact ⟨_, rfl, fun c hc => List.mem_takeWhile_imp hc, List.takeWhile_append_dropWhile.symm,
    fun t => not_isComment_of_dropWhile⟩

theorem expect_eq_ok (h : expect expected cursor = .ok tree after) :
    ∃ t, tree = .leaf t ∧ expected.accepts t ∧ cursor.unread = t :: after.unread := by
  obtain ⟨_ | ⟨t, rest⟩, trace⟩ := cursor
  · cases h
  · rw [expect_cons] at h
    split at h
    · next ht =>
      cases h
      exact ⟨t, rfl, ht, rfl⟩
    · cases h

theorem ofExcept_eq_ok {x : Except ParseError α} (h : ofExcept x cursor = .ok a after) :
    x = .ok a ∧ cursor = after := by
  cases x with
  | error e => cases h
  | ok b =>
    cases h
    exact ⟨rfl, rfl⟩

theorem optionally_eq_ok {part : Parser (List Tree)}
    (h : optionally sign part cursor = .ok trees after) :
    (significant? cursor.unread).any sign.accepts ∧ part cursor = .ok trees after ∨
      ¬ (significant? cursor.unread).any sign.accepts ∧ trees = [] ∧ cursor = after := by
  rw [optionally_apply] at h
  split at h
  · next hs => exact .inl ⟨hs, h⟩
  · next hs =>
    cases h
    exact .inr ⟨hs, rfl, rfl⟩

/-- A successful run of items stops before the closer, and what it read are items. -/
def SoundItems (p : Parser (List Tree)) (closer : Char) : Prop :=
  ∀ cursor trees after, p cursor = .ok trees after →
    ∃ word close rest, cursor.unread = word ++ after.unread ∧ after.unread = close :: rest ∧
      close.isSymbol closer ∧ Items word trees (some close)

variable {readItems : Char → Parser (List Tree)}

/-- What a production reads is what it describes, when runs of items are sound. -/
theorem production_sound (hi : ∀ closer, SoundItems (readItems closer) closer)
    {production : Production} (h : production.read readItems cursor = .ok trees after) :
    ∃ word, cursor.unread = word ++ after.unread ∧
      production.Yields word trees after.unread := by
  induction production generalizing cursor trees after with
  | done =>
    cases h
    exact ⟨[], rfl, .done⟩
  | token expected next ih =>
    obtain ⟨_, mid, hb, h⟩ := bind_eq_ok h
    obtain ⟨before, rfl, hc, hb, -⟩ := comments_eq_ok hb
    obtain ⟨leaf, _, he, h⟩ := bind_eq_ok h
    obtain ⟨t, rfl, ht, hu⟩ := expect_eq_ok he
    obtain ⟨more, _, hm, h⟩ := bind_eq_ok h
    cases h
    obtain ⟨word, hw, hy⟩ := ih hm
    have hp : Spaced expected (before ++ [t]) := .intro (gap_iff.2 hc) (terminal_iff.2 ht)
    have hall := Production.Yields.token hp hy
    exact ⟨_, by simp [hb, hu, hw], hall.cast rfl (by simp)⟩
  | run closer layout next ih =>
    obtain ⟨run, mid, hr, h⟩ := bind_eq_ok h
    obtain ⟨word, close, rest, hw, hm, hc, hits⟩ := hi closer _ _ _ hr
    obtain ⟨arranged, _, ha, h⟩ := bind_eq_ok h
    obtain ⟨harr, rfl⟩ := ofExcept_eq_ok ha
    obtain ⟨leaf, _, he, h⟩ := bind_eq_ok h
    obtain ⟨t, rfl, ht, hu⟩ := expect_eq_ok he
    obtain ⟨more, _, hm', h⟩ := bind_eq_ok h
    cases h
    obtain ⟨words, hws, hy⟩ := ih hm'
    rw [hm, List.cons.injEq] at hu
    obtain ⟨rfl, rfl⟩ := hu
    have hrun := Run.intro hits (terminal_iff.2 hc) (arranged_iff.2 harr)
    have hall := Production.Yields.run hrun hy
    exact ⟨_, by simp [hw, hm, hws], hall.cast rfl (by simp)⟩
  | optional sign part next ihp ihn =>
    obtain ⟨front, mid, hf, h⟩ := bind_eq_ok h
    obtain ⟨more, _, hm, h⟩ := bind_eq_ok h
    cases h
    obtain ⟨words, hws, hyn⟩ := ihn hm
    rcases optionally_eq_ok hf with ⟨hs, hp⟩ | ⟨hs, rfl, rfl⟩
    · obtain ⟨word, hw, hyp⟩ := ihp hp
      rw [hws] at hw hyp
      rw [hw] at hs
      exact ⟨_, by rw [hw, List.append_assoc], .present hs hyp hyn⟩
    · rw [hws] at hs
      exact ⟨words, hws, .absent hs hyn⟩
  | nested construct part next ihp ihn =>
    obtain ⟨_, mid, hb, h⟩ := bind_eq_ok h
    obtain ⟨before, rfl, hc, hb, hh⟩ := comments_eq_ok hb
    obtain ⟨children, _, hp, h⟩ := bind_eq_ok h
    obtain ⟨more, _, hm, h⟩ := bind_eq_ok h
    cases h
    obtain ⟨word, hw, hyp⟩ := ihp hp
    obtain ⟨words, hws, hyn⟩ := ihn hm
    rw [hws] at hw hyp
    rw [hw] at hh
    exact ⟨_, by rw [hb, hw, List.append_assoc, List.append_assoc],
      .nested (gap_iff.2 hc) hh hyp hyn⟩

theorem item_sound (hi : ∀ closer, SoundItems (readItems closer) closer)
    (h : item readItems head rest ⟨head :: rest, trace⟩ = .ok (some trees) after) :
    ∃ word, head :: rest = word ++ after.unread ∧
      Item word trees (significant? after.unread) := by
  cases hc : Choice.of head (significant? rest) with
  | closer =>
    rw [item_closer hc] at h
    cases h
  | forbidden =>
    rw [item_forbidden hc] at h
    cases h
  | terminal =>
    rw [item_terminal hc] at h
    cases h
    exact ⟨[head], rfl, .plain (Choice.plain_of_terminal hc)⟩
  | opens rule =>
    rw [item_opens hc] at h
    obtain ⟨children, _, hr, h⟩ := bind_eq_ok h
    cases h
    obtain ⟨word, hw, hy⟩ := production_sound hi hr
    dsimp only at hw
    rw [hw] at hc
    exact ⟨head :: word, by rw [hw, List.cons_append],
      .of_yields (Choice.opens_iff.1 hc) hy⟩

theorem item_cons (h : Item word trees next) : ∃ head tail, word = head :: tail := by
  cases h <;> exact ⟨_, _, rfl⟩

theorem item_suffix (hi : ∀ closer, SoundItems (readItems closer) closer)
    (h : item readItems head rest ⟨head :: rest, trace⟩ = .ok (some trees) after) :
    after.unread <:+ rest := by
  obtain ⟨word, hw, hitem⟩ := item_sound hi h
  obtain ⟨first, tail, rfl⟩ := item_cons hitem
  obtain ⟨-, hr⟩ := List.cons.inj hw
  exact ⟨tail, hr.symm⟩

theorem item_eq_none (h : item readItems head rest cursor = .ok none after) :
    Choice.of head (significant? rest) = .closer ∧ after.unread = cursor.unread := by
  cases hc : Choice.of head (significant? rest) with
  | closer =>
    rw [item_closer hc] at h
    cases h
    exact ⟨rfl, rfl⟩
  | terminal =>
    rw [item_terminal hc] at h
    cases h
  | forbidden =>
    rw [item_forbidden hc] at h
    cases h
  | opens rule =>
    rw [item_opens hc] at h
    obtain ⟨_, _, _, h⟩ := bind_eq_ok h
    cases h

theorem items_sound (limit : Nat) (closer : Char) : SoundItems (items limit closer) closer := by
  induction limit generalizing closer with
  | zero =>
    intro cursor trees after h
    cases h
  | succ limit ih =>
    rintro ⟨_ | ⟨head, rest⟩, trace⟩ trees after h
    · cases h
    by_cases hh : head.isSymbol closer
    · rw [items_closer limit hh] at h
      cases h
      exact ⟨[], head, rest, rfl, rfl, hh, .nil⟩
    rw [items_cons limit hh] at h
    obtain ⟨found, mid, hf, h⟩ := bind_eq_ok h
    cases found with
    | none => cases h
    | some first =>
      obtain ⟨more, _, hm, h⟩ := bind_eq_ok h
      cases h
      obtain ⟨word, hw, hfirst⟩ := item_sound ih hf
      obtain ⟨words, close, rest', hws, hr, hc, hmore⟩ := ih closer _ _ _ hm
      refine ⟨word ++ words, close, rest', ?_, hr, hc, .cons ?_ hmore⟩
      · dsimp only
        rw [hw, hws, List.append_assoc]
      · rwa [hws, hr, significant?_append,
          significant?_cons (Token.not_isComment_of_isSymbol hc)] at hfirst

/-- A reader succeeds, whatever choices were made before. -/
def Reads (p : Parser α) (input : List Token) (a : α) (rest : List Token) : Prop :=
  ∀ trace, ∃ trace', p ⟨input, trace⟩ = .ok a ⟨rest, trace'⟩

theorem Reads.pure (a : α) (input : List Token) : Reads (Pure.pure a) input a input :=
  fun trace => ⟨trace, rfl⟩

theorem Reads.bind {p : Parser α} {f : α → Parser β} (hp : Reads p input a mid)
    (hf : Reads (f a) mid b rest) : Reads (p >>= f) input b rest := by
  intro trace
  obtain ⟨trace', hp⟩ := hp trace
  obtain ⟨trace'', hf⟩ := hf trace'
  exact ⟨trace'', by rw [bind_ok f hp, hf]⟩

theorem comments_reads (hc : ∀ c ∈ before, c.isComment)
    (hh : ∀ t, rest.head? = some t → ¬ t.isComment) :
    Reads comments (before ++ rest) (leaves before) rest := by
  intro trace
  refine ⟨trace, ?_⟩
  rw [comments_apply, takeWhile_append_of_head hc hh, dropWhile_append_of_head hc hh, leaves]

theorem expect_reads {expected : Expected} (h : expected.accepts t) :
    Reads (expect expected) (t :: rest) (.leaf t) rest :=
  fun trace => ⟨trace, by rw [expect_cons, if_pos h]⟩

theorem optionally_reads {part : Parser (List Tree)}
    (hs : (significant? input).any sign.accepts) (hp : Reads part input trees rest) :
    Reads (optionally sign part) input trees rest := by
  intro trace
  rw [optionally_apply, if_pos hs]
  exact hp trace

theorem optionally_reads_nothing {part : Parser (List Tree)}
    (hs : ¬ (significant? input).any sign.accepts) :
    Reads (optionally sign part) input [] input :=
  fun trace => ⟨trace, by rw [optionally_apply, if_neg hs]⟩

/-- Every run of items before a closer is read, when at most `limit` tokens are unread. -/
def CompleteItems (limit : Nat) (p : Parser (List Tree)) (closer : Char) : Prop :=
  ∀ word trees close rest, Items word trees (some close) → close.isSymbol closer →
    (word ++ close :: rest).length ≤ limit →
    Reads p (word ++ close :: rest) trees (close :: rest)

/-- A production reads what it describes, when runs of items are complete. -/
theorem production_complete {production : Production}
    (hi : ∀ closer, Choice.ofSymbol closer = .closer →
      CompleteItems limit (readItems closer) closer)
    (hc : ∀ closer ∈ production.closers, Choice.ofSymbol closer = .closer)
    (hy : production.Yields word trees rest) (hl : (word ++ rest).length ≤ limit) :
    Reads (production.read readItems) (word ++ rest) trees rest := by
  induction hy with
  | done => exact .pure _ _
  | @token expected place next word trees rest hp hn ih =>
    cases hp with
    | @intro before t hb ht =>
      simp only [List.append_assoc, List.singleton_append, leaves_append, leaves_cons, leaves_nil,
        List.length_append, List.length_cons, Production.closers] at hc hl ⊢
      have hh : ∀ u, (t :: (word ++ rest)).head? = some u → ¬ u.isComment := by
        rintro _ ⟨⟩
        exact ht.not_isComment
      have hm := ih hc <| by
        rw [List.length_append]
        omega
      have he : Reads (expect expected) (t :: (word ++ rest)) (.leaf t) (word ++ rest) :=
        expect_reads (terminal_iff.1 ht)
      exact (comments_reads (gap_iff.1 hb) hh).bind (he.bind (hm.bind (.pure _ _)))
  | @run closer layout word trees next words more rest hr hn ih =>
    cases hr with
    | @intro word items close _ _ children hits hclose harr =>
      simp only [List.append_assoc, List.singleton_append, List.length_append, List.length_cons,
        Production.closers, List.mem_cons, forall_eq_or_imp] at hc hl ⊢
      have ha := terminal_iff.1 hclose
      have hr := hi closer hc.1 word items close (words ++ rest) hits ha <| by
        simp only [List.length_append, List.length_cons]
        omega
      have hm := ih hc.2 <| by
        rw [List.length_append]
        omega
      apply hr.bind
      rw [arranged_iff.1 harr]
      exact (Reads.pure children _).bind ((expect_reads ha).bind (hm.bind (.pure _ _)))
  | present hs hp hn ihp ihn =>
    simp only [List.append_assoc, Production.closers, List.mem_append, or_imp, forall_and,
      List.length_append] at hc hl ihp ihn ⊢
    have hf := ihp hc.1 (by omega)
    have hm := ihn hc.2 (by omega)
    exact (optionally_reads hs hf).bind (hm.bind (.pure _ _))
  | absent hs hn ih =>
    simp only [Production.closers, List.mem_append, or_imp, forall_and] at hc
    exact (optionally_reads_nothing hs).bind ((ih hc.2 hl).bind (.pure _ _))
  | nested hb hh hp hn ihp ihn =>
    simp only [List.append_assoc, Production.closers, List.mem_append, or_imp, forall_and,
      List.length_append] at hc hl ihp ihn ⊢
    have hp := ihp hc.1 (by omega)
    have hm := ihn hc.2 (by omega)
    exact (comments_reads (gap_iff.1 hb) hh).bind (hp.bind (hm.bind (.pure _ _)))

theorem item_complete
    (hi : ∀ closer, Choice.ofSymbol closer = .closer →
      CompleteItems limit (readItems closer) closer)
    (h : Item (head :: word) trees (significant? rest)) (hl : (word ++ rest).length ≤ limit) :
    Reads (item readItems head (word ++ rest)) (head :: (word ++ rest)) (some trees) rest := by
  cases h.choice with
  | plain hp =>
    intro trace
    exact ⟨trace, item_terminal (Choice.terminal_of_plain hp) _⟩
  | @opens _ _ children rule hs hy =>
    intro trace
    rw [item_opens (Choice.opens_iff.2 hs)]
    have hr : Reads (do return some (rule.build head (← rule.production.read readItems)))
        (word ++ rest) (some (rule.build head children)) rest :=
      (production_complete hi rule.closers hy hl).bind (.pure _ _)
    exact hr _

theorem item_not_closer (h : Item (head :: word) trees (significant? rest))
    (hc : Choice.ofSymbol closer = .closer) : ¬ head.isSymbol closer := by
  intro hh
  cases h.choice with
  | plain hp =>
    have ht := Choice.terminal_of_plain hp
    rw [Choice.of_closer hc hh] at ht
    cases ht
  | opens rule hs hy =>
    have ho := Choice.opens_iff.2 hs
    rw [Choice.of_closer hc hh] at ho
    cases ho

theorem items_complete (limit : Nat) (closer : Char) (hc : Choice.ofSymbol closer = .closer) :
    CompleteItems limit (items limit closer) closer := by
  induction limit generalizing closer with
  | zero =>
    intro word trees close rest _ _ hl
    simp at hl
  | succ limit ih =>
    intro word trees close rest h hclose hl
    cases h with
    | nil => exact fun trace => ⟨trace, items_closer limit hclose rest trace⟩
    | @cons word first words _ more hfirst hmore =>
      obtain ⟨head, tail, rfl⟩ := item_cons hfirst
      have hn : significant? (words ++ close :: rest) = following words (some close) := by
        rw [significant?_append, significant?_cons (Token.not_isComment_of_isSymbol hclose)]
      rw [← hn] at hfirst
      simp only [List.cons_append, List.append_assoc, List.length_cons, List.length_append]
        at hl ⊢
      have hitem := item_complete ih hfirst <| by
        simp only [List.length_append, List.length_cons]
        omega
      have hrest := ih closer hc words more close rest hmore hclose <| by
        simp only [List.length_append, List.length_cons]
        omega
      have hall : Reads (do return first ++ (← items limit closer)) _ (first ++ more) _ :=
        hrest.bind (.pure _ _)
      intro trace
      rw [items_cons limit (item_not_closer hfirst hc)]
      exact hitem.bind hall trace

theorem derives_of_classTree (h : classTree ⟨ts, trace⟩ = .ok tree ⟨[], trace'⟩) :
    Derives tree ts := by
  rw [classTree_apply] at h
  obtain ⟨children, mid, hr, h⟩ := bind_eq_ok h
  obtain ⟨_, last, hc, h⟩ := bind_eq_ok h
  obtain ⟨after, rfl, ha, hu, -⟩ := comments_eq_ok hc
  cases h
  obtain ⟨word, hw, hy⟩ := production_sound (items_sound _) hr
  dsimp only at hw
  obtain ⟨place, _, _, hp, h₁, rfl, rfl⟩ := hy.token_inv
  obtain ⟨name, _, _, hn, h₂, rfl, rfl⟩ := h₁.token_inv
  obtain ⟨opening, body, members, ho, h₃, rfl, rfl⟩ := h₂.token_inv
  cases hp with
  | intro hb ht =>
    have hd := Derives.intro hb (.class_ ht hn ho h₃.singleRun_inv) (gap_iff.2 ha)
    rw [hw, hu]
    simpa using hd

theorem classTree_reads (hy : Production.wholeClass.Yields word children (after ++ rest))
    (ha : Gap after) (hh : ∀ t, rest.head? = some t → ¬ t.isComment) :
    Reads classTree (word ++ (after ++ rest)) (.node .class_ (children ++ leaves after)) rest := by
  have hk : ∀ closer ∈ Production.wholeClass.closers, Choice.ofSymbol closer = .closer :=
    Rule.closers .class_
  have hr := production_complete (items_complete _) hk hy (Nat.le_refl _)
  have hall : Reads (do
      let children ← Production.wholeClass.read (items (word ++ (after ++ rest)).length)
      return Tree.node .class_ (children ++ (← comments))) (word ++ (after ++ rest))
      (.node .class_ (children ++ leaves after)) rest :=
    hr.bind ((comments_reads (gap_iff.1 ha) hh).bind (.pure _ _))
  intro trace
  rw [classTree_apply]
  exact hall trace

theorem Reads.of_derives_append (h : Derives tree ts)
    (hh : ∀ t, rest.head? = some t → ¬ t.isComment) : Reads classTree (ts ++ rest) tree rest := by
  match h with
  | .intro hb (.class_ hc hn ho hr) ha =>
    have hp := Spaced.intro hb hc
    have hy := classTree_reads (.token hp (.token hn (.token ho (.singleRun hr)))) ha hh
    simpa using hy

theorem Reads.of_derives (h : Derives tree ts) : Reads classTree ts tree [] := by
  have hr := of_derives_append h fun t (ht : [].head? = some t) => nomatch ht
  rwa [List.append_nil] at hr

end Parser

/-- A token list is parsed to a tree exactly when the tree derives it. -/
theorem parse_ok_iff_derives (tree : Tree) (ts : List Token) :
    (parse ts).result = .ok tree ↔ Derives tree ts := by
  rw [parse_eq_ok_iff]
  constructor
  · rintro ⟨trace, h⟩
    exact Parser.derives_of_classTree h
  · intro h
    exact Parser.Reads.of_derives h _

end Jack
