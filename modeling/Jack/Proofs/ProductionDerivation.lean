import Jack.Proofs.Dispatch

namespace Jack

@[simp] theorem leaves_nil : leaves [] = [] := rfl

@[simp] theorem leaves_cons (t : Token) (word : List Token) :
    leaves (t :: word) = .leaf t :: leaves word := rfl

@[simp] theorem leaves_append (word words : List Token) :
    leaves (word ++ words) = leaves word ++ leaves words := List.map_append

theorem significant?_append (word rest : List Token) :
    Parser.significant? (word ++ rest) = following word (Parser.significant? rest) := by
  rw [following_eq]
  exact List.find?_append

theorem significant?_comments (h : ∀ c ∈ comments, c.isComment) (rest : List Token) :
    Parser.significant? (comments ++ rest) = Parser.significant? rest := by
  have hn : Parser.significant? comments = none := List.find?_eq_none.2 (by simpa using h)
  rw [significant?_append, following_eq, hn, Option.none_or]

theorem significant?_cons {t : Token} (h : ¬ t.isComment) (rest : List Token) :
    Parser.significant? (t :: rest) = some t :=
  List.find?_cons_of_pos (by simpa using h)

theorem Spaced.next (h : Spaced expected place) :
    ∃ t, Terminal expected t ∧ ∀ rest, Parser.significant? (place ++ rest) = some t := by
  cases h with
  | @intro gap t hg ht =>
    refine ⟨t, ht, fun rest => ?_⟩
    rw [List.append_assoc, significant?_comments (gap_iff.1 hg), List.singleton_append,
      significant?_cons ht.not_isComment]

theorem Spaced.sign (h : Spaced expected place) (rest : List Token) :
    (Parser.significant? (place ++ rest)).any expected.accepts := by
  obtain ⟨t, ht, hn⟩ := h.next
  rw [hn]
  exact terminal_iff.1 ht

theorem Spaced.no_sign (h : Spaced (.symbol char) place)
    (hne : char ≠ other) (rest : List Token) :
    ¬ (Parser.significant? (place ++ rest)).any (Expected.symbol other).accepts := by
  obtain ⟨t, ht, hn⟩ := h.next
  rw [hn]
  intro ha
  cases ht
  exact hne (Option.some.inj (beq_iff_eq.1 ha))

theorem Spaced.token (h : Terminal expected t) : Spaced expected [t] := by
  have hs : Spaced expected ([] ++ [t]) := .intro gap_nil h
  exact hs

theorem Spaced.eq_singleton (h : Spaced expected place)
    (hh : ∀ t, (place ++ rest).head? = some t → ¬ t.isComment) :
    ∃ t, place = [t] ∧ Terminal expected t := by
  cases h with
  | @intro gap t hg ht =>
    cases gap with
    | nil => exact ⟨t, rfl, ht⟩
    | cons c gap => exact (hh c rfl (gap_iff.1 hg c (List.mem_cons_self ..))).elim

theorem Qualifier.next (h : Qualifier qualifier) (ho : Spaced (.symbol '(') opening) :
    ∃ t, (Terminal (.symbol '(') t ∨ Terminal (.symbol '.') t) ∧
      ∀ rest, Parser.significant? (qualifier ++ (opening ++ rest)) = some t := by
  cases h with
  | absent =>
    obtain ⟨t, ht, hn⟩ := ho.next
    exact ⟨t, .inl ht, hn⟩
  | present hd _ =>
    obtain ⟨t, ht, hn⟩ := hd.next
    exact ⟨t, .inr ht, fun rest => by rw [List.append_assoc, hn]⟩

/-- What a production describes: a word and its trees, before the rest of the input. -/
inductive Production.Yields : Production → List Token → List Tree → List Token → Prop where
  | done : Yields .done [] [] rest
  | token (hp : Spaced expected place) (hn : Yields next word trees rest) :
      Yields (.token expected next) (place ++ word) (leaves place ++ trees) rest
  | run (hr : Run closer layout word trees) (hn : Yields next words more rest) :
      Yields (.run closer layout next) (word ++ words) (trees ++ more) rest
  | present (hs : (Parser.significant? (word ++ (words ++ rest))).any sign.accepts)
      (hp : Yields part word trees (words ++ rest)) (hn : Yields next words more rest) :
      Yields (.optional sign part next) (word ++ words) (trees ++ more) rest
  | absent (hs : ¬ (Parser.significant? (word ++ rest)).any sign.accepts)
      (hn : Yields next word trees rest) : Yields (.optional sign part next) word trees rest
  | nested (hg : Gap gap)
      (hh : ∀ t, (word ++ (words ++ rest)).head? = some t → ¬ t.isComment)
      (hp : Yields part word trees (words ++ rest)) (hn : Yields next words more rest) :
      Yields (.nested construct part next) (gap ++ (word ++ words))
        (leaves gap ++ .node construct trees :: more) rest

namespace Production.Yields

theorem single (hp : Spaced expected place) :
    Yields (.token expected .done) place (leaves place) rest := by
  simpa using token hp .done

theorem singleRun (hr : Run closer layout word trees) :
    Yields (.run closer layout .done) word trees rest := by
  simpa using run hr .done

theorem cast (h : Yields production word trees rest) (hw : word = word') (ht : trees = trees') :
    Yields production word' trees' rest := hw ▸ ht ▸ h

theorem subscript (ho : Spaced (.symbol '[') opening) (hi : Run ']' .expression word trees) :
    Yields (.subscript .done) (opening ++ word) (leaves opening ++ trees) rest :=
  token ho (singleRun hi)

theorem block (ho : Spaced (.symbol '\x7b') opening)
    (hb : Run '\x7d' (.grouped .statements) word trees) :
    Yields (.block .done) (opening ++ word) (leaves opening ++ trees) rest :=
  token ho (singleRun hb)

theorem call (hq : Qualifier qualifier) (ho : Spaced (.symbol '(') opening)
    (ha : Run ')' .arguments word arguments) (hn : Yields next words more rest) :
    Yields (.call next) (qualifier ++ (opening ++ (word ++ words)))
      (leaves qualifier ++ (leaves opening ++ (arguments ++ more))) rest := by
  have hr := token ho (run ha hn)
  cases hq with
  | absent =>
    apply absent _ hr
    rw [List.append_assoc]
    exact ho.no_sign (by decide) _
  | @present dot name hd hn' =>
    rw [leaves_append]
    apply present _ (token hd (single hn')) hr
    rw [List.append_assoc]
    exact hd.sign _

theorem element (ho : Spaced (.symbol '[') opening) (hi : Run ']' .expression word trees)
    (hn : Yields next words more rest) :
    Yields (.optional (.symbol '[') (.subscript .done) next) (opening ++ (word ++ words))
      (leaves opening ++ (trees ++ more)) rest := by
  rw [← List.append_assoc, ← List.append_assoc]
  apply present _ (subscript ho hi) hn
  rw [List.append_assoc]
  exact ho.sign _

theorem elsePart (he : Spaced (.keyword .else_) otherwise) (hs : Spaced (.symbol '\x7b') opening)
    (hb : Run '\x7d' (.grouped .statements) word trees) :
    Yields (.optional (.keyword .else_) (.token (.keyword .else_) (.block .done)) .done)
      (otherwise ++ (opening ++ word)) (leaves otherwise ++ (leaves opening ++ trees)) rest := by
  rw [← List.append_nil (otherwise ++ _), ← List.append_nil (leaves otherwise ++ _)]
  apply present _ (token he (block hs hb)) done
  rw [List.append_assoc]
  exact he.sign _

theorem noElse (hn : NoElse (Parser.significant? rest)) :
    Yields (.optional (.keyword .else_) (.token (.keyword .else_) (.block .done)) .done) [] []
      rest := by
  apply absent _ done
  rw [List.nil_append, Option.any_eq_true]
  rintro ⟨t, ht, hk⟩
  exact hn t ht (terminal_iff.2 hk)

theorem bodyBlock (hg : Gap gap) (hs : Terminal (.symbol '\x7b') start)
    (hb : Run '\x7d' .body word trees) :
    Yields (.nested .subroutineBody (.braced .body .done) .done) (gap ++ start :: word)
      (leaves gap ++ [.node .subroutineBody (.leaf start :: trees)]) rest := by
  have hw : start :: word = (start :: word) ++ [] := (List.append_nil _).symm
  have ho : Spaced (.symbol '\x7b') [start] := .token hs
  rw [hw]
  apply nested hg _ (token ho (singleRun hb)) done
  rintro t ⟨⟩
  exact hs.not_isComment

theorem done_inv (h : Yields .done word trees rest) : word = [] ∧ trees = [] := by
  cases h
  exact ⟨rfl, rfl⟩

theorem token_inv (h : Yields (.token expected next) word trees rest) :
    ∃ place words more, Spaced expected place ∧ Yields next words more rest ∧
      word = place ++ words ∧ trees = leaves place ++ more := by
  cases h with
  | token hp hn => exact ⟨_, _, _, hp, hn, rfl, rfl⟩

theorem single_inv (h : Yields (.token expected .done) word trees rest) :
    Spaced expected word ∧ trees = leaves word := by
  obtain ⟨place, words, more, hp, hn, rfl, rfl⟩ := h.token_inv
  obtain ⟨rfl, rfl⟩ := hn.done_inv
  simpa using hp

theorem run_inv (h : Yields (.run closer layout next) word trees rest) :
    ∃ first arranged words more, Run closer layout first arranged ∧ Yields next words more rest ∧
      word = first ++ words ∧ trees = arranged ++ more := by
  cases h with
  | run hr hn => exact ⟨_, _, _, _, hr, hn, rfl, rfl⟩

theorem singleRun_inv (h : Yields (.run closer layout .done) word trees rest) :
    Run closer layout word trees := by
  obtain ⟨first, arranged, words, more, hr, hn, rfl, rfl⟩ := h.run_inv
  obtain ⟨rfl, rfl⟩ := hn.done_inv
  simpa using hr

theorem subscript_inv (h : Yields (.subscript .done) word trees rest) :
    ∃ opening run index, Spaced (.symbol '[') opening ∧ Run ']' .expression run index ∧
      word = opening ++ run ∧ trees = leaves opening ++ index := by
  obtain ⟨opening, run, index, ho, hr, rfl, rfl⟩ := h.token_inv
  exact ⟨opening, run, index, ho, hr.singleRun_inv, rfl, rfl⟩

theorem block_inv (h : Yields (.block next) word trees rest) :
    ∃ opening run statements words more, Spaced (.symbol '\x7b') opening ∧
      Run '\x7d' (.grouped .statements) run statements ∧ Yields next words more rest ∧
      word = opening ++ (run ++ words) ∧ trees = leaves opening ++ (statements ++ more) := by
  obtain ⟨opening, _, _, ho, hr, rfl, rfl⟩ := h.token_inv
  obtain ⟨run, statements, words, more, hb, hn, rfl, rfl⟩ := hr.run_inv
  exact ⟨opening, run, statements, words, more, ho, hb, hn, rfl, rfl⟩

theorem condition_inv (h : Yields (.parenthesized .expression next) word trees rest) :
    ∃ opening run condition words more, Spaced (.symbol '(') opening ∧
      Run ')' .expression run condition ∧ Yields next words more rest ∧
      word = opening ++ (run ++ words) ∧ trees = leaves opening ++ (condition ++ more) := by
  obtain ⟨opening, _, _, ho, hr, rfl, rfl⟩ := h.token_inv
  obtain ⟨run, condition, words, more, hc, hn, rfl, rfl⟩ := hr.run_inv
  exact ⟨opening, run, condition, words, more, ho, hc, hn, rfl, rfl⟩

theorem qualifier_inv
    (h : Yields (.token (.symbol '.') (.token .identifier .done)) word trees rest) :
    Qualifier word ∧ trees = leaves word := by
  obtain ⟨dot, name, _, hd, hi, rfl, rfl⟩ := h.token_inv
  obtain ⟨hn, rfl⟩ := hi.single_inv
  exact ⟨.present hd hn, (leaves_append dot name).symm⟩

theorem call_inv (h : Yields (.call next) word trees rest) :
    ∃ qualifier opening run words arguments more, Qualifier qualifier ∧
      Spaced (.symbol '(') opening ∧ Run ')' .arguments run arguments ∧
      Yields next words more rest ∧ word = qualifier ++ (opening ++ (run ++ words)) ∧
      trees = leaves qualifier ++ (leaves opening ++ (arguments ++ more)) := by
  cases h with
  | absent _ hp =>
    obtain ⟨opening, _, _, ho, hr, rfl, rfl⟩ := hp.token_inv
    obtain ⟨run, arguments, words, more, ha, hn, rfl, rfl⟩ := hr.run_inv
    exact ⟨[], opening, run, words, arguments, more, .absent, ho, ha, hn, rfl, rfl⟩
  | present _ hd hp =>
    obtain ⟨hq, rfl⟩ := hd.qualifier_inv
    obtain ⟨opening, _, _, ho, hr, rfl, rfl⟩ := hp.token_inv
    obtain ⟨run, arguments, words, more, ha, hn, rfl, rfl⟩ := hr.run_inv
    exact ⟨_, opening, run, words, arguments, more, hq, ho, ha, hn, rfl, rfl⟩

end Production.Yields

section OfYields

variable {head : Token} {word rest : List Token} {trees : List Tree}

theorem Item.subroutineDec_of_yields (hs : Rule.subroutineDec.Starts head next)
    (hy : Rule.subroutineDec.production.Yields word trees rest) :
    Item (head :: word) [.node .subroutineDec (.leaf head :: trees)] after := by
  obtain ⟨type, _, _, ht, h₁, rfl, rfl⟩ := hy.token_inv
  obtain ⟨name, _, _, hn, h₂, rfl, rfl⟩ := h₁.token_inv
  obtain ⟨opening, _, _, ho, h₃, rfl, rfl⟩ := h₂.token_inv
  obtain ⟨parameters, list, _, _, hp, h₄, rfl, rfl⟩ := h₃.run_inv
  cases h₄ with
  | nested hg hh hb hd =>
    obtain ⟨rfl, rfl⟩ := hd.done_inv
    obtain ⟨start, body, children, ho', hr, rfl, rfl⟩ := hb.token_inv
    rw [List.append_assoc] at hh
    obtain ⟨start, rfl, hstart⟩ := ho'.eq_singleton hh
    simpa using Item.subroutineDec hs ht hn ho hp hg hstart hr.singleRun_inv

theorem Item.let_of_yields (hs : Rule.let_.Starts head next)
    (hy : Rule.let_.production.Yields word trees rest) :
    Item (head :: word) [.node .letStatement (.leaf head :: trees)] after := by
  obtain ⟨name, _, _, hn, h₁, rfl, rfl⟩ := hy.token_inv
  cases h₁ with
  | absent _ h₂ =>
    obtain ⟨equals, _, _, he, hv, rfl, rfl⟩ := h₂.token_inv
    exact .let_ hs hn he hv.singleRun_inv
  | present _ h₂ h₃ =>
    obtain ⟨opening, index, position, ho, hi, rfl, rfl⟩ := h₂.subscript_inv
    obtain ⟨equals, _, _, he, hv, rfl, rfl⟩ := h₃.token_inv
    simpa using Item.letElement hs hn ho hi he hv.singleRun_inv

theorem Item.if_of_yields (hs : Rule.if_.Starts head next)
    (hy : Rule.if_.production.Yields word trees rest) :
    Item (head :: word) [.node .ifStatement (.leaf head :: trees)]
      (Parser.significant? rest) := by
  obtain ⟨opening, run, condition, _, _, ho, hc, h₁, rfl, rfl⟩ := hy.condition_inv
  obtain ⟨start, block, statements, _, _, hb, hr, h₂, rfl, rfl⟩ := h₁.block_inv
  cases h₂ with
  | absent hn hd =>
    obtain ⟨rfl, rfl⟩ := hd.done_inv
    have hn' : NoElse (Parser.significant? rest) := by
      intro t ht hk
      apply hn
      rw [List.nil_append, ht]
      exact terminal_iff.1 hk
    simpa using Item.if_ hs ho hc hb hr hn'
  | present _ hp hd =>
    obtain ⟨rfl, rfl⟩ := hd.done_inv
    obtain ⟨otherwise, _, _, he, h₃, rfl, rfl⟩ := hp.token_inv
    obtain ⟨start', block', statements', _, _, hb', hr', h₄, rfl, rfl⟩ := h₃.block_inv
    obtain ⟨rfl, rfl⟩ := h₄.done_inv
    simpa using Item.ifElse hs ho hc hb hr he hb' hr'

/-- A rule whose production describes what follows the first token of an item. -/
theorem Item.of_yields {rule : Rule}
    (hs : rule.Starts head (Parser.significant? (word ++ rest)))
    (hy : rule.production.Yields word trees rest) :
    Item (head :: word) (rule.build head trees) (Parser.significant? rest) := by
  cases rule with
  | class_ =>
    obtain ⟨name, _, _, hn, h₁, rfl, rfl⟩ := hy.token_inv
    obtain ⟨opening, _, _, ho, hb, rfl, rfl⟩ := h₁.token_inv
    exact .class_ hs hn ho hb.singleRun_inv
  | classVarDec => exact .classVarDec hs hy.singleRun_inv
  | varDec => exact .varDec hs hy.singleRun_inv
  | subroutineDec => exact .subroutineDec_of_yields hs hy
  | let_ => exact .let_of_yields hs hy
  | if_ => exact .if_of_yields hs hy
  | while_ =>
    obtain ⟨opening, run, condition, _, _, ho, hc, h₁, rfl, rfl⟩ := hy.condition_inv
    obtain ⟨start, block, statements, _, _, hb, hr, hd, rfl, rfl⟩ := h₁.block_inv
    obtain ⟨rfl, rfl⟩ := hd.done_inv
    simpa [Rule.build, Rule.construct?] using Item.while_ hs ho hc hb hr
  | do_ =>
    obtain ⟨name, _, _, hn, h₁, rfl, rfl⟩ := hy.token_inv
    obtain ⟨qualifier, opening, run, _, arguments, _, hq, ho, ha, h₂, rfl, rfl⟩ := h₁.call_inv
    obtain ⟨he, rfl⟩ := h₂.single_inv
    exact .do_ hs hn hq ho ha he
  | return_ => exact .return_ hs hy.singleRun_inv
  | parenthesizedTerm => exact .parenthesized hs hy.singleRun_inv
  | callTerm =>
    obtain ⟨qualifier, opening, run, _, arguments, _, hq, ho, ha, hd, rfl, rfl⟩ := hy.call_inv
    obtain ⟨rfl, rfl⟩ := hd.done_inv
    simpa [Rule.build, Rule.construct?] using Item.call hs.1 hq ho ha
  | subscriptTerm =>
    obtain ⟨opening, run, index, ho, hi, rfl, rfl⟩ := hy.subscript_inv
    exact .element hs.1 ho hi
  | subscript => exact .subscript hs hy.singleRun_inv

end OfYields

/-- An item is plain, or its first token chooses a rule that describes what follows. -/
inductive Chosen (rest : List Token) : List Token → List Tree → Prop where
  | plain (h : Plain head (Parser.significant? rest)) : Chosen rest [head] [.leaf head]
  | opens (rule : Rule) (hs : rule.Starts head (Parser.significant? (word ++ rest)))
      (hy : rule.production.Yields word trees rest) :
      Chosen rest (head :: word) (rule.build head trees)

theorem Item.choice (h : Item word trees (Parser.significant? rest)) : Chosen rest word trees := by
  cases h with
  | plain h => exact .plain h
  | class_ hh hn ho hb => exact .opens .class_ hh (.token hn (.token ho (.singleRun hb)))
  | classVarDec hh hr => exact .opens .classVarDec hh (.singleRun hr)
  | subroutineDec hh ht hn ho hp hg hs hb =>
    have hy : Production.Yields _ _ _ rest := .run hp (.bodyBlock hg hs hb)
    exact .opens .subroutineDec hh (.token ht (.token hn (.token ho hy)))
  | varDec hh hr => exact .opens .varDec hh (.singleRun hr)
  | let_ hh hn he hv =>
    apply Chosen.opens .let_ hh
    apply Production.Yields.token hn
    apply Production.Yields.absent _ (.token he (.singleRun hv))
    rw [List.append_assoc]
    exact he.no_sign (by decide) _
  | letElement hh hn ho hi he hv =>
    have hy : Production.Yields _ _ _ rest := .token he (.singleRun hv)
    exact .opens .let_ hh (.token hn (.element ho hi hy))
  | if_ hh ho hc hs hb hn =>
    have hy : Production.Yields _ _ _ rest := .run hb (.noElse hn)
    rw [List.append_nil, List.append_nil] at hy
    exact .opens .if_ hh (.token ho (.run hc (.token hs hy)))
  | ifElse hh ho hc hs hb he hs' hb' =>
    have hy : Production.Yields _ _ _ rest := .run hb (.elsePart he hs' hb')
    exact .opens .if_ hh (.token ho (.run hc (.token hs hy)))
  | while_ hh ho hc hs hb =>
    exact .opens .while_ hh (.token ho (.run hc (.token hs (.singleRun hb))))
  | do_ hh hn hq ho ha hs => exact .opens .do_ hh (.token hn (.call hq ho ha (.single hs)))
  | return_ hh hv => exact .opens .return_ hh (.singleRun hv)
  | parenthesized hh he => exact .opens .parenthesizedTerm hh (.singleRun he)
  | call hh hq ho ha =>
    obtain ⟨t, ht, hn⟩ := hq.next ho
    have hy : Production.Yields _ _ _ rest := .call hq ho ha .done
    rw [List.append_nil, List.append_nil] at hy
    apply Chosen.opens .callTerm ⟨hh, t, _, ht⟩ hy
    rw [List.append_assoc, List.append_assoc, hn]
  | element hh ho hi =>
    obtain ⟨t, ht, hn⟩ := ho.next
    apply Chosen.opens .subscriptTerm ⟨hh, t, _, ht⟩ (.token ho (.singleRun hi))
    rw [List.append_assoc, hn]
  | subscript hh hi => exact .opens .subscript hh (.singleRun hi)

end Jack
