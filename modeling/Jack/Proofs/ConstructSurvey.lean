import Jack.Proofs.ExpressionSurvey

namespace Jack

@[simp] theorem forestTokens_leaves_word (word : List Token) : forestTokens (leaves word) = word :=
  forestTokens_leaves word

theorem Arranged.tokens (h : Arranged layout items children) :
    forestTokens children = forestTokens items :=
  Layout.tokens_arrange (arranged_iff.1 h)

def NoCall (before after : List Token) : Prop :=
  EndsInName before → ∀ t, Parser.significant? after = some t → ¬ t.isSymbol '('

/-- The survey of items, between words of which the second goes on as the items expect. -/
def SurveyedItems (word : List Token) (trees : List Tree) (next : Option Token) : Prop :=
  forestTokens trees = word ∧ ∀ before after, next = Parser.significant? after →
    NoCall before (word ++ after) → Surveyed before trees after ∧ NoCall (before ++ word) after

/-- The survey of a run of items and its closer, after a word that does not end in a name. -/
def SurveyedRun (closer : Char) (layout : Layout) (word : List Token) (trees : List Tree) : Prop :=
  forestTokens trees = word ∧ ∀ before after, ¬ EndsInName before → layout.isSound →
    (Expected.symbol closer).isQuiet →
    (∀ close rest, layout = .expression → close.isSymbol closer →
      BlankPlace before (close :: rest)) →
    Surveyed before trees after

theorem SurveyedItems.nil : SurveyedItems [] [] next := by
  refine ⟨rfl, fun before after _ hc => ⟨.nil, ?_⟩⟩
  rwa [List.append_nil]

theorem SurveyedItems.cons (hi : SurveyedItems word trees (following words next))
    (hs : SurveyedItems words more next) :
    SurveyedItems (word ++ words) (trees ++ more) next := by
  obtain ⟨ht, hi⟩ := hi
  obtain ⟨hm, hs⟩ := hs
  refine ⟨by rw [forestTokens_append, ht, hm], fun before after hn hc => ?_⟩
  rw [List.append_assoc] at hc
  obtain ⟨hf, hc⟩ := hi before (words ++ after) (by rw [hn, significant?_append]) hc
  obtain ⟨hr, hc⟩ := hs (before ++ word) after hn hc
  rw [← ht] at hr
  rw [← hm] at hf
  rw [← List.append_assoc]
  exact ⟨hf.append hr, hc⟩

theorem SurveyedRun.intro (hi : SurveyedItems word items (some close))
    (hc : Terminal (.symbol closer) close) (ha : Arranged layout items children) :
    SurveyedRun closer layout (word ++ [close]) (children ++ [.leaf close]) := by
  obtain ⟨ht, hi⟩ := hi
  have hw := ha.tokens.trans ht
  refine ⟨by simp [hw], fun before after hn hl hq hb => ?_⟩
  have hs : some close = Parser.significant? (close :: after) :=
    (significant?_cons hc.not_isComment after).symm
  obtain ⟨hf, -⟩ := hi before (close :: after) hs fun he => absurd he hn
  have hf := hf.arranged ha hl fun he => hb close after he (terminal_iff.1 hc)
  exact hf.append (.quiet (hc.isQuiet hq) .nil)

theorem SurveyedItems.plain (h : Plain head next) : SurveyedItems [head] [.leaf head] next := by
  refine ⟨rfl, fun before after hn hc => ⟨.quiet (Token.isQuiet_of_plain h) .nil, ?_⟩⟩
  intro he
  cases h with
  | keyword | symbol | integer | string =>
    rw [endsInName_concat (by simp [Token.isComment])] at he
    cases he
  | identifier h =>
    intro t ht
    exact fun hs => (h t (hn.trans ht)).1 (terminal_iff.2 hs)
  | @comment text line =>
    have hg : ∀ c ∈ [(⟨.comment text, line⟩ : Token)], c.isComment :=
      List.forall_mem_singleton.2 rfl
    rw [NoCall, significant?_comments hg] at hc
    exact hc ((endsInName_append_comments hg before).1 he)

theorem SurveyedItems.node (ht : forestTokens children = word)
    (he : Nameless word) (hc : construct ≠ .expression)
    (hn : construct.needsContent → ∀ inner, .node .expression inner ∈ children → HasContent inner)
    (h : ∀ before after, NoCall before (word ++ after) → Surveyed before children after) :
    SurveyedItems word [.node construct children] next := by
  refine ⟨by simp [ht], fun before after _ hp => ⟨(h before after hp).node hc hn, ?_⟩⟩
  exact fun hw => absurd hw (he before)

namespace Surveyed

/-- A let statement, which is derived as the whole item. -/
theorem statement (hh : Terminal (.keyword .let_) head)
    (hi : ∀ next, Item (head :: forestTokens children)
      [.node .letStatement (.leaf head :: children)] next)
    (h : Surveyed (before ++ [head]) children after) :
    Surveyed before [.node .letStatement (.leaf head :: children)] after where
  blank inner front rest ho := by
    obtain ⟨⟨⟩, -⟩ | ⟨front, hc, rfl⟩ := occursIn_statement_iff.1 ho
    have hb := h.blank _ _ _ hc
    rwa [← List.append_cons] at hb
  needed construct inner front rest ho hn := by
    obtain ⟨⟨⟩, -⟩ | ⟨front, hc, rfl⟩ := occursIn_statement_iff.1 ho
    · cases hn
    · exact h.needed _ _ _ _ hc hn
  filled front gap rest he hn hl hc hb := by
    rw [forestTokens_cons, Tree.tokens_node, forestTokens_cons, forestTokens_nil,
      List.append_nil] at he hl
    obtain ⟨_, front, rfl⟩ := List.exists_cons_of_ne_nil hn
    obtain ⟨rfl, hw⟩ := List.cons.inj he
    by_cases hf : front = []
    · subst hf
      obtain ⟨ho, -⟩ | ⟨-, ho, -⟩ := hb.of_concat <;>
        simp [Token.isSymbol_iff, terminal_keyword_iff.1 hh] at ho
    · rw [List.append_cons] at hb
      obtain ⟨rest, ho⟩ := h.filled front gap rest hw hf (Nat.le_of_succ_le_succ hl) hc hb
      exact ⟨rest, occursIn_statement_iff.2 (.inr ⟨front, ho, rfl⟩)⟩
  assignment front head' word he hl hh' hp := by
    rw [forestTokens_cons, Tree.tokens_node, forestTokens_cons, forestTokens_nil,
      List.append_nil] at he hl
    cases front with
    | nil =>
      obtain ⟨rfl, hw⟩ := List.cons.inj he
      exact ⟨children, [], occursIn_statement_iff.2 (.inl ⟨rfl, rfl, rfl⟩), hi⟩
    | cons _ front =>
      obtain ⟨rfl, hw⟩ := List.cons.inj he
      obtain ⟨children', rest, ho, hd⟩ :=
        h.assignment front head' word hw (Nat.lt_of_succ_lt_succ hl) hh' hp
      exact ⟨children', rest, occursIn_statement_iff.2 (.inr ⟨front, ho, rfl⟩), hd⟩

/-- Where a return type is asked for, `let` is one, and parameters follow its name. -/
theorem returnType (ht : Spaced .returnType type) (hn : Spaced .identifier name)
    (ho : Spaced (.symbol '(') opening)
    (h : Surveyed (before ++ type) (leaves name ++ (leaves opening ++ trees)) after) :
    Surveyed before (leaves type ++ (leaves name ++ (leaves opening ++ trees))) after := by
  cases ht with
  | @intro gap t hg ht =>
    rw [← List.append_assoc] at h
    rw [leaves_append, List.append_assoc]
    refine comments (gap_iff.1 hg) (leaf (fun gap rest _ _ hb => ?_) (fun _ => ?_) h)
    · obtain ⟨hs, -⟩ | ⟨-, hs, -⟩ := hb.of_concat <;> cases ht <;> cases hs
    · have hp : Parameterized (name ++ (opening ++ (forestTokens trees ++ after))) := .intro hn ho
      simpa using hp

theorem spacedBracket (ho : Spaced (.symbol opening) place)
    (hp : opening = '[' ∧ closer = ']' ∨ opening = '(' ∧ closer = ')')
    (hr : Run closer .expression word index) (hw : forestTokens index = word)
    (h : Surveyed (before ++ place) (index ++ trees) after) :
    Surveyed before (leaves place ++ (index ++ trees)) after := by
  cases ho with
  | intro hg ht =>
    rw [← List.append_assoc] at h
    rw [leaves_append, leaves_cons, leaves_nil, List.append_assoc, List.singleton_append]
    exact comments (gap_iff.1 hg) (bracket (terminal_iff.1 ht) hp hr hw h)

theorem run (hr : SurveyedRun closer layout word trees) (hn : ¬ EndsInName before)
    (hl : layout.isSound) (hq : (Expected.symbol closer).isQuiet)
    (hb : ∀ close rest, layout = .expression → close.isSymbol closer →
      BlankPlace before (close :: rest))
    (h : Surveyed (before ++ word) more after) : Surveyed before (trees ++ more) after := by
  obtain ⟨rfl, hr⟩ := hr
  exact (hr before _ hn hl hq hb).append h

theorem qualified (hq : Qualifier qualifier) (h : Surveyed (before ++ qualifier) trees after) :
    Surveyed before (leaves qualifier ++ trees) after := by
  cases hq with
  | absent => rwa [List.append_nil] at h
  | present hd hn =>
    rw [← List.append_assoc] at h
    rw [leaves_append, List.append_assoc]
    exact spaced rfl hd (spaced rfl hn h)

theorem call (hn : EndsInName before) (ho : Spaced (.symbol '(') opening)
    (hr : SurveyedRun ')' layout word trees) (hl : layout.isSound) (he : layout ≠ .expression)
    (h : Surveyed (before ++ opening ++ word) more after) :
    Surveyed before (leaves opening ++ (trees ++ more)) after :=
  spacedCall hn ho (run hr (ho.nameless before) hl rfl (fun _ _ hc => absurd hc he) h)

theorem condition (hn : ¬ EndsInName before) (ho : Spaced (.symbol '(') opening)
    (hc : Run ')' .expression word trees) (hr : SurveyedRun ')' .expression word trees)
    (h : Surveyed (before ++ opening ++ word) more after) :
    Surveyed before (leaves opening ++ (trees ++ more)) after :=
  spacedBracket ho (.inr ⟨rfl, rfl⟩) hc hr.1
    (run hr (ho.nameless before) rfl rfl (fun _ rest _ hk => .group hn ho rest hk) h)

theorem index (ho : Spaced (.symbol '[') opening) (hi : Run ']' .expression word trees)
    (hr : SurveyedRun ']' .expression word trees)
    (h : Surveyed (before ++ opening ++ word) more after) :
    Surveyed before (leaves opening ++ (trees ++ more)) after :=
  spacedBracket ho (.inl ⟨rfl, rfl⟩) hi hr.1
    (run hr (ho.nameless before) rfl rfl (fun _ rest _ hk => .index ho before rest hk) h)

theorem block (ho : Spaced (.symbol '\x7b') opening)
    (hr : SurveyedRun '\x7d' layout word trees) (hl : layout.isSound) (he : layout ≠ .expression)
    (h : Surveyed (before ++ opening ++ word) more after) :
    Surveyed before (leaves opening ++ (trees ++ more)) after :=
  spaced rfl ho (run hr (ho.nameless before) hl rfl (fun _ _ hc => absurd hc he) h)

theorem terminal (hh : Terminal expected head) (hq : expected.isQuiet)
    (h : Surveyed (before ++ [head]) trees after) : Surveyed before (.leaf head :: trees) after :=
  quiet (hh.isQuiet hq) h

theorem of_append_nil (h : Surveyed before (trees ++ []) after) : Surveyed before trees after := by
  rwa [List.append_nil] at h

end Surveyed

namespace SurveyedItems

variable {next : Option Token}

theorem class_ (hh : Terminal (.keyword .class_) head) (hn : Spaced .identifier name)
    (ho : Spaced (.symbol '\x7b') opening) (hr : Run '\x7d' .spliced body members)
    (hb : SurveyedRun '\x7d' .spliced body members) :
    SurveyedItems (head :: (name ++ (opening ++ body)))
      [.node .class_ (.leaf head :: (leaves name ++ (leaves opening ++ members)))] next := by
  refine node (by simp [hb.1]) (.cons (.append (.append hr.nameless))) nofun nofun
    fun before after _ => ?_
  have hm := hb.2 (before ++ [head] ++ name ++ opening) after (ho.nameless _) rfl rfl nofun
  exact .terminal hh rfl (.spaced rfl hn (.spaced rfl ho hm))

theorem declaration (hh : Terminal (.keyword keyword) head) (hk : keyword != .let_)
    (hc : construct != .expression && !construct.needsContent) (hr : Run ';' .spliced word trees)
    (hb : SurveyedRun ';' .spliced word trees) :
    SurveyedItems (head :: word) [.node construct (.leaf head :: trees)] next := by
  rw [Bool.and_eq_true, bne_iff_ne, Bool.not_eq_true'] at hc
  refine node (by simp [hb.1]) (.cons hr.nameless) hc.1 (by simp [hc.2]) fun before after _ => ?_
  exact .terminal hh hk (hb.2 _ after (not_endsInName_keyword hh before) rfl rfl nofun)

theorem subroutineDec (hh : Terminal (.keyword keyword) head) (hk : keyword != .let_)
    (ht : Spaced .returnType type) (hn : Spaced .identifier name)
    (ho : Spaced (.symbol '(') opening)
    (hp : SurveyedRun ')' (.grouped .parameterList) parameters list)
    (hg : Gap gap) (hs : Terminal (.symbol '\x7b') start)
    (hr : Run '\x7d' .body body children) (hb : SurveyedRun '\x7d' .body body children) :
    SurveyedItems
      (head :: (type ++ (name ++ (opening ++ (parameters ++ (gap ++ start :: body))))))
      [.node .subroutineDec (.leaf head :: (leaves type ++ (leaves name ++ (leaves opening ++
        (list ++ (leaves gap ++ [.node .subroutineBody (.leaf start :: children)]))))))]
      next := by
  have he : Nameless (parameters ++ (gap ++ start :: body)) :=
    .append (.append (.cons hr.nameless))
  refine node (by simp [hb.1, hp.1]) (.cons (.append (.append (.append he)))) nofun nofun
    fun before after _ => ?_
  have hm := hb.2
    (before ++ [head] ++ type ++ name ++ opening ++ parameters ++ gap ++ [start]) after
    (not_endsInName_symbol hs _) rfl rfl nofun
  have hm : Surveyed _ [.node .subroutineBody (.leaf start :: children)] after :=
    .node nofun nofun (.terminal hs rfl hm)
  refine .terminal hh hk (.returnType ht hn ho (.spaced rfl hn ?_))
  exact .call (hn.endsInName _) ho hp rfl nofun (.comments (gap_iff.1 hg) hm)

theorem statement (hh : Terminal (.keyword .let_) head) (hw : forestTokens children = word)
    (he : Nameless word)
    (hi : ∀ next, Item (head :: word) [.node .letStatement (.leaf head :: children)] next)
    (h : ∀ before after, Surveyed (before ++ [head]) children after) :
    SurveyedItems (head :: word) [.node .letStatement (.leaf head :: children)] next := by
  refine ⟨by simp [hw], fun before after _ _ => ⟨.statement hh (hw ▸ hi) (h before after), ?_⟩⟩
  intro hn
  rw [List.append_cons] at hn
  exact absurd hn (he _)

theorem let_ (hh : Terminal (.keyword .let_) head) (hn : Spaced .identifier name)
    (he : Spaced (.symbol '=') equals) (hr : Run ';' .expression word value)
    (hv : SurveyedRun ';' .expression word value) :
    SurveyedItems (head :: (name ++ (equals ++ word)))
      [.node .letStatement (.leaf head :: (leaves name ++ (leaves equals ++ value)))] next := by
  refine statement hh (by simp [hv.1]) (.append (.append hr.nameless)) (fun _ => .let_ hh hn he hr)
    fun before after => ?_
  refine .spaced rfl hn (.spaced rfl he (hv.2 _ after (he.nameless _) rfl rfl ?_))
  intro close rest _ hc
  have hb : BlankPlace (before ++ head :: (name ++ equals)) (close :: rest) :=
    .value (terminal_iff.1 hh) (.name hn) he hc
  simpa using hb

theorem letElement (hh : Terminal (.keyword .let_) head) (hn : Spaced .identifier name)
    (ho : Spaced (.symbol '[') opening) (hi : Run ']' .expression index position)
    (hp : SurveyedRun ']' .expression index position)
    (he : Spaced (.symbol '=') equals) (hr : Run ';' .expression word value)
    (hv : SurveyedRun ';' .expression word value) :
    SurveyedItems (head :: (name ++ (opening ++ (index ++ (equals ++ word)))))
      [.node .letStatement (.leaf head :: (leaves name ++ (leaves opening ++
        (position ++ (leaves equals ++ value)))))] next := by
  refine statement hh (by simp [hp.1, hv.1]) (.append (.append (.append (.append hr.nameless))))
    (fun _ => .letElement hh hn ho hi he hr) fun before after => ?_
  refine .spaced rfl hn (.index ho hi hp ?_)
  refine .spaced rfl he (hv.2 _ after (he.nameless _) rfl rfl ?_)
  intro close rest _ hc
  have hb : BlankPlace (before ++ head :: ((name ++ (opening ++ index)) ++ equals))
      (close :: rest) := .value (terminal_iff.1 hh) (.element hn ho hi) he hc
  simpa using hb

theorem conditional (hh : Terminal (.keyword keyword) head) (hk : keyword != .let_)
    (hc : construct != .expression && !construct.needsContent) (ho : Spaced (.symbol '(') opening)
    (hr : Run ')' .expression word condition) (hw : SurveyedRun ')' .expression word condition)
    (hs : Spaced (.symbol '\x7b') start) (hr' : Run '\x7d' (.grouped .statements) block statements)
    (hb : SurveyedRun '\x7d' (.grouped .statements) block statements) :
    SurveyedItems (head :: (opening ++ (word ++ (start ++ block))))
      [.node construct (.leaf head :: (leaves opening ++ (condition ++
        (leaves start ++ statements))))] next := by
  rw [Bool.and_eq_true, bne_iff_ne, Bool.not_eq_true'] at hc
  refine node (by simp [hw.1, hb.1]) (.cons (.append (.append (.append hr'.nameless)))) hc.1
    (by simp [hc.2]) fun before after _ => ?_
  refine .terminal hh hk (.condition (not_endsInName_keyword hh before) ho hr hw ?_)
  exact .spaced rfl hs (hb.2 _ after (hs.nameless _) rfl rfl nofun)

theorem ifElse (hh : Terminal (.keyword .if_) head) (ho : Spaced (.symbol '(') opening)
    (hr : Run ')' .expression word condition) (hw : SurveyedRun ')' .expression word condition)
    (hs : Spaced (.symbol '\x7b') start)
    (hb : SurveyedRun '\x7d' (.grouped .statements) block statements)
    (he : Spaced (.keyword .else_) otherwise) (hs' : Spaced (.symbol '\x7b') start')
    (hr' : Run '\x7d' (.grouped .statements) block' statements')
    (hb' : SurveyedRun '\x7d' (.grouped .statements) block' statements') :
    SurveyedItems
      (head :: (opening ++ (word ++ (start ++ (block ++ (otherwise ++ (start' ++ block')))))))
      [.node .ifStatement (.leaf head :: (leaves opening ++ (condition ++ (leaves start ++
        (statements ++ (leaves otherwise ++ (leaves start' ++ statements')))))))] next := by
  have hn : Nameless (otherwise ++ (start' ++ block')) := .append (.append hr'.nameless)
  refine node (by simp [hw.1, hb.1, hb'.1]) (.cons (.append (.append (.append (.append hn)))))
    nofun nofun fun before after _ => ?_
  refine .terminal hh rfl (.condition (not_endsInName_keyword hh before) ho hr hw ?_)
  refine .block hs hb rfl nofun (.spaced rfl he ?_)
  exact .spaced rfl hs' (hb'.2 _ after (hs'.nameless _) rfl rfl nofun)

theorem do_ (hh : Terminal (.keyword .do_) head) (hn : Spaced .identifier name)
    (hq : Qualifier qualifier) (ho : Spaced (.symbol '(') opening)
    (ha : SurveyedRun ')' .arguments word arguments) (hs : Spaced (.symbol ';') ending) :
    SurveyedItems (head :: (name ++ (qualifier ++ (opening ++ (word ++ ending)))))
      [.node .doStatement (.leaf head :: (leaves name ++ (leaves qualifier ++ (leaves opening ++
        (arguments ++ leaves ending)))))] next := by
  refine node (by simp [ha.1]) (.cons (.append (.append (.append (.append hs.nameless)))))
    nofun nofun fun before after _ => ?_
  refine .terminal hh rfl (.spaced rfl hn (.qualified hq ?_))
  refine .call (hq.endsInName (hn.endsInName _)) ho ha rfl nofun ?_
  exact .of_append_nil (.spaced rfl hs .nil)

theorem return_ (hh : Terminal (.keyword .return_) head) (hr : Run ';' .value word value)
    (hv : SurveyedRun ';' .value word value) :
    SurveyedItems (head :: word) [.node .returnStatement (.leaf head :: value)] next := by
  refine node (by simp [hv.1]) (.cons hr.nameless) nofun (fun _ inner hm => ?_)
    fun before after _ => ?_
  · cases hr with
    | intro _ _ ha =>
      simp only [List.mem_cons, List.mem_append, reduceCtorEq, false_or, List.not_mem_nil,
        or_false] at hm
      exact ha.needed inner hm
  · exact .terminal hh rfl (hv.2 _ after (not_endsInName_keyword hh before) rfl rfl nofun)

theorem parenthesized (hh : Terminal (.symbol '(') head) (hr : Run ')' .expression word value)
    (hv : SurveyedRun ')' .expression word value) :
    SurveyedItems (head :: word) [.node .term (.leaf head :: value)] next := by
  refine node (by simp [hv.1]) (.cons hr.nameless) nofun nofun fun before after hp => ?_
  have hn : ¬ EndsInName before := fun hn =>
    hp hn head (significant?_cons hh.not_isComment _) (terminal_iff.1 hh)
  have ho : Spaced (.symbol '(') [head] := .token hh
  exact .of_append_nil (.condition hn ho hr hv .nil)

theorem call (hh : Terminal .identifier head) (hq : Qualifier qualifier)
    (ho : Spaced (.symbol '(') opening) (hr : Run ')' .arguments word arguments)
    (ha : SurveyedRun ')' .arguments word arguments) :
    SurveyedItems (head :: (qualifier ++ (opening ++ word)))
      [.node .term (.leaf head :: (leaves qualifier ++ (leaves opening ++ arguments)))] next := by
  have hn : Spaced .identifier [head] := .token hh
  refine node (by simp [ha.1]) (.cons (.append (.append hr.nameless))) nofun nofun
    fun before after _ => ?_
  refine .terminal hh rfl (.qualified hq ?_)
  have hc := hq.endsInName (hn.endsInName before)
  exact .spacedCall hc ho (ha.2 _ after (ho.nameless _) rfl rfl nofun)

theorem element (hh : Terminal .identifier head) (ho : Spaced (.symbol '[') opening)
    (hr : Run ']' .expression word index) (hi : SurveyedRun ']' .expression word index) :
    SurveyedItems (head :: (opening ++ word))
      [.node .term (.leaf head :: (leaves opening ++ index))] next := by
  refine node (by simp [hi.1]) (.cons (.append hr.nameless)) nofun nofun fun before after _ => ?_
  rw [← List.append_nil index]
  exact .terminal hh rfl (.index ho hr hi .nil)

theorem subscript (hh : Terminal (.symbol '[') head) (hr : Run ']' .expression word index)
    (hi : SurveyedRun ']' .expression word index) :
    SurveyedItems (head :: word) (.leaf head :: index) next := by
  refine ⟨by simp [hi.1], fun before after _ _ => ⟨?_, fun hn => ?_⟩⟩
  · have ho : Spaced (.symbol '[') [head] := .token hh
    exact .of_append_nil (.index ho hr hi .nil)
  · rw [List.append_cons] at hn
    exact absurd hn (hr.nameless _)

end SurveyedItems

theorem Run.surveyed (h : Run closer layout word trees) : SurveyedRun closer layout word trees := by
  induction h using Run.rec (motive_1 := fun word trees next _ => SurveyedItems word trees next)
    (motive_2 := fun word trees next _ => SurveyedItems word trees next) with
  | nil => exact .nil
  | cons _ _ hi hs => exact .cons hi hs
  | intro _ hc ha hi => exact .intro hi hc ha
  | plain h => exact .plain h
  | class_ hh hn ho hr hb => exact .class_ hh hn ho hr hb
  | classVarDec hh hr hb =>
    exact hh.elim (fun hh => .declaration hh rfl rfl hr hb) fun hh => .declaration hh rfl rfl hr hb
  | subroutineDec hh ht hn ho hp hc hs hb ihp ihb =>
    rcases hh with hh | hh | hh <;> exact .subroutineDec hh rfl ht hn ho ihp hc hs hb ihb
  | varDec hh hr hb => exact .declaration hh rfl rfl hr hb
  | let_ hh hn he hr hv => exact .let_ hh hn he hr hv
  | letElement hh hn ho hi he hr hp hv => exact .letElement hh hn ho hi hp he hr hv
  | if_ hh ho hr hs hb _ ihr ihb => exact .conditional hh rfl rfl ho hr ihr hs hb ihb
  | ifElse hh ho hr hs hb he hs' hb' ihr ihb ihb' =>
    exact .ifElse hh ho hr ihr hs ihb he hs' hb' ihb'
  | while_ hh ho hr hs hb ihr ihb => exact .conditional hh rfl rfl ho hr ihr hs hb ihb
  | do_ hh hn hq ho _ hs ha => exact .do_ hh hn hq ho ha hs
  | return_ hh hr hv => exact .return_ hh hr hv
  | parenthesized hh hr hv => exact .parenthesized hh hr hv
  | call hh hq ho hr ha => exact .call hh hq ho hr ha
  | element hh ho hr hi => exact .element hh ho hr hi
  | subscript hh hr hi => exact .subscript hh hr hi

theorem Derives.surveyed (h : Derives tree ts) : tree.tokens = ts ∧ Surveyed [] [tree] [] := by
  match h with
  | .intro hb (.class_ hh hn ho hr) ha =>
    have hs := hr.surveyed
    refine ⟨by simp [hs.1], .node nofun nofun (.comments (gap_iff.1 hb) ?_)⟩
    simp only [List.cons_append, List.nil_append, List.append_assoc]
    refine .terminal hh rfl (.spaced rfl hn (.block ho hs rfl nofun ?_))
    exact .of_append_nil (.comments (gap_iff.1 ha) .nil)

end Jack
