import Jack.Proofs.UniqueReading

namespace Jack

/-- The last token of a word that is no comment is a name. -/
def EndsInName (word : List Token) : Prop :=
  ∃ t, Parser.significant? word.reverse = some t ∧ t.isIdentifier

/-- No text ends in a name when it ends in the word. -/
def Nameless (word : List Token) : Prop := ∀ before, ¬ EndsInName (before ++ word)

/-- The two sides of a gap between brackets that hold an expression. After a name there are
arguments or parameters in parentheses. -/
inductive BetweenBrackets : List Token → List Token → Prop where
  | index (ho : opening.isSymbol '[') (hc : closing.isSymbol ']') :
      BetweenBrackets (before ++ [opening]) (closing :: after)
  | group (hn : ¬ EndsInName before) (ho : opening.isSymbol '(') (hc : closing.isSymbol ')') :
      BetweenBrackets (before ++ [opening]) (closing :: after)

/-- What a value can be assigned to: a name, or an element of an array. -/
inductive Target : List Token → Prop where
  | name (hn : Spaced .identifier name) : Target name
  | element (hn : Spaced .identifier name) (ho : Spaced (.symbol '[') opening)
      (hi : Run ']' .expression index trees) : Target (name ++ (opening ++ index))

/-- The two sides of a gap where the grammar asks for an expression. -/
inductive BlankPlace : List Token → List Token → Prop where
  | brackets (h : BetweenBrackets before after) : BlankPlace before after
  | value (hh : head.isKeyword .let_) (ht : Target target) (he : Spaced (.symbol '=') equals)
      (hc : closing.isSymbol ';') :
      BlankPlace (before ++ head :: (target ++ equals)) (closing :: after)

inductive Parameterized : List Token → Prop where
  | intro (hn : Spaced .identifier name) (ho : Spaced (.symbol '(') opening) :
      Parameterized (name ++ (opening ++ rest))

section EndsInName

theorem endsInName_append_comments (h : ∀ c ∈ gap, c.isComment) (word : List Token) :
    EndsInName (word ++ gap) ↔ EndsInName word := by
  rw [EndsInName, List.reverse_append, significant?_comments (by simpa using h)]
  rfl

theorem endsInName_concat (h : ¬ t.isComment) (word : List Token) :
    EndsInName (word ++ [t]) ↔ t.isIdentifier := by
  rw [EndsInName, List.reverse_append, List.reverse_singleton, List.singleton_append,
    significant?_cons h]
  simp

theorem Spaced.endsInName (h : Spaced .identifier place) (word : List Token) :
    EndsInName (word ++ place) := by
  cases h with
  | intro _ ht =>
    rw [← List.append_assoc]
    exact (endsInName_concat ht.not_isComment _).2 (terminal_iff.1 ht)

theorem not_endsInName_symbol (h : Terminal (.symbol char) t) (word : List Token) :
    ¬ EndsInName (word ++ [t]) := by
  rw [endsInName_concat h.not_isComment]
  cases h
  nofun

theorem not_endsInName_keyword (h : Terminal (.keyword keyword) t) (word : List Token) :
    ¬ EndsInName (word ++ [t]) := by
  rw [endsInName_concat h.not_isComment]
  cases h
  nofun

theorem Nameless.append (h : Nameless word) : Nameless (front ++ word) := by
  intro before
  rw [← List.append_assoc]
  exact h _

theorem Nameless.cons (h : Nameless word) : Nameless (t :: word) := by
  have hc : Nameless ([t] ++ word) := h.append
  exact hc

theorem Spaced.nameless (h : Spaced (.symbol char) place) : Nameless place := by
  cases h with
  | intro _ ht => exact Nameless.append (not_endsInName_symbol ht)

theorem Run.nameless (h : Run closer layout run trees) : Nameless run := by
  cases h with
  | intro _ hc _ => exact Nameless.append (not_endsInName_symbol hc)

end EndsInName

theorem BetweenBrackets.of_concat (h : BetweenBrackets (before ++ [t]) rest) :
    (t.isSymbol '[' ∧ ∃ closing after, rest = closing :: after ∧ closing.isSymbol ']') ∨
      (¬ EndsInName before ∧ t.isSymbol '(' ∧
        ∃ closing after, rest = closing :: after ∧ closing.isSymbol ')') := by
  generalize hw : before ++ [t] = word at h
  cases h with
  | index ho hc =>
    obtain ⟨rfl, ht⟩ := List.append_inj' hw rfl
    cases ht
    exact .inl ⟨ho, _, _, rfl, hc⟩
  | group hn ho hc =>
    obtain ⟨rfl, ht⟩ := List.append_inj' hw rfl
    cases ht
    exact .inr ⟨hn, ho, _, _, rfl, hc⟩

theorem BetweenBrackets.ne_nil (h : BetweenBrackets before after) : before ≠ [] := by
  cases h <;> simp

theorem BlankPlace.index (ho : Spaced (.symbol '[') opening) (before rest : List Token)
    (hc : close.isSymbol ']') : BlankPlace (before ++ opening) (close :: rest) := by
  cases ho with
  | intro _ ht =>
    rw [← List.append_assoc]
    exact .brackets (.index (terminal_iff.1 ht) hc)

theorem BlankPlace.group (hn : ¬ EndsInName before) (ho : Spaced (.symbol '(') opening)
    (rest : List Token) (hc : close.isSymbol ')') :
    BlankPlace (before ++ opening) (close :: rest) := by
  cases ho with
  | intro hg ht =>
    rw [← List.append_assoc]
    have hn' := mt (endsInName_append_comments (gap_iff.1 hg) before).1 hn
    exact .brackets (.group hn' (terminal_iff.1 ht) hc)

theorem Qualifier.endsInName (h : Qualifier qualifier) (hn : EndsInName before) :
    EndsInName (before ++ qualifier) := by
  cases h with
  | absent => rwa [List.append_nil]
  | present _ hi =>
    rw [← List.append_assoc]
    exact hi.endsInName _

theorem Spaced.not_parameterized (hn : Spaced .identifier name) (hs : Spaced (.symbol char) place)
    (hc : char ≠ '(') : ¬ Parameterized (name ++ (place ++ rest)) := by
  generalize hw : name ++ (place ++ rest) = word
  rintro ⟨hn', ho⟩
  refine hs.no_sign hc rest ?_
  rw [hn.append_inj hn' hw]
  exact ho.sign _

theorem Target.not_parameterized (h : Target target) (he : Spaced (.symbol '=') equals) :
    ¬ Parameterized (target ++ (equals ++ rest)) := by
  cases h with
  | name hn => exact hn.not_parameterized he (by decide)
  | element hn ho =>
    rw [List.append_assoc, List.append_assoc]
    exact hn.not_parameterized ho (by decide)

end Jack
