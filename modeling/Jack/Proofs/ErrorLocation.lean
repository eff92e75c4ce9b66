import Jack.Proofs.Conservation
import Jack.Proofs.Recognition
import Jack.Proofs.Renaming

namespace Jack

/-- The tokens left of an input stand right after an opening parenthesis. -/
def Opened (ts left : List Token) : Prop :=
  ∃ front opening, ts = front ++ opening :: left ∧ opening.isSymbol '('

/-- Where an error stands: the end of the input, the token that it is about, or, when an argument is
missing, the closing parenthesis of the argument list. -/
inductive ErrorAt (ts : List Token) : ParseError → (left : List Token) → Prop where
  | ended : ErrorAt ts (.unexpectedEnd expected) []
  | token (hs : e.subject? = some t) (hm : ∀ comma, e ≠ .missingArgument comma)
      (ht : ¬ t.isComment) : ErrorAt ts e (t :: rest)
  | argument (ho : Opened ts (word ++ close :: rest)) (hi : Items word items (some close))
      (hc : close.isSymbol ')') (hm : comma ∈ word) (hs : comma.isSymbol ',') :
      ErrorAt ts (.missingArgument comma) (close :: rest)

theorem ErrorAt.exists_token (h : ErrorAt ts e left)
    (he : ∀ expected, e ≠ .unexpectedEnd expected) :
    ∃ t rest, left = t :: rest ∧ ¬ t.isComment := by
  cases h with
  | ended => exact absurd rfl (he _)
  | token _ _ ht => exact ⟨_, _, rfl, ht⟩
  | argument _ _ hc => exact ⟨_, _, rfl, Token.not_isComment_of_isSymbol hc⟩

/-- Argument lists come right after an opening parenthesis and end with a closing one; `opened` says
whether an opening parenthesis comes right before the production. -/
def Production.enclosesArguments (opened : Bool) : Production → Bool
  | .done => true
  | .token expected next => next.enclosesArguments (expected == .symbol '(')
  | .run closer layout next =>
    (layout != .arguments || (opened && closer == ')')) && next.enclosesArguments false
  | .optional _ part next | .nested _ part next =>
    part.enclosesArguments false && next.enclosesArguments false

theorem Rule.enclosesArguments (rule : Rule) : rule.production.enclosesArguments false := by
  cases rule <;> rfl

theorem mem_forestTokens (h : .leaf t ∈ trees) : t ∈ forestTokens trees := by
  obtain ⟨front, back, rfl⟩ := List.append_of_mem h
  simp

structure Within (ts : List Token) (limit : Nat) (left : List Token) : Prop where
  suffix : left <:+ ts
  length_le : left.length ≤ limit

theorem Within.of_suffix (h : Within ts limit left) (hs : rest <:+ left) :
    Within ts limit rest :=
  ⟨hs.trans h.suffix, hs.length_le.trans h.length_le⟩

namespace Parser

/-- When a reader of some last tokens of an input fails, its error stands where the reader stops. -/
def Locates (ts left : List Token) (p : Parser α) : Prop :=
  ∀ trace e after, p ⟨left, trace⟩ = .error e after → ErrorAt ts e after.unread

namespace Locates

theorem pure (a : α) : Locates ts left (Pure.pure a) := by
  rintro trace e after ⟨⟩

theorem fail (h : ErrorAt ts e left) : Locates ts left (Parser.fail e : Parser α) := by
  rintro trace _ after ⟨⟩
  exact h

theorem bind {p : Parser α} {f : α → Parser β} (h : Locates ts left p)
    (hf : ∀ trace a after, p ⟨left, trace⟩ = .ok a after → Locates ts after.unread (f a)) :
    Locates ts left (p >>= f) := by
  intro trace e after hr
  cases hp : p ⟨left, trace⟩ with
  | error e' mid =>
    rw [bind_error f hp] at hr
    cases hr
    exact h trace e after hp
  | ok a mid =>
    rw [bind_ok f hp] at hr
    exact hf trace a mid hp mid.trace e after hr

theorem comments : Locates ts left comments := by
  rintro trace e after ⟨⟩

theorem expect (h : ∀ t, left.head? = some t → ¬ t.isComment) (expected : Expected) :
    Locates ts left (Parser.expect expected) := by
  intro trace e after hr
  cases left with
  | nil =>
    cases hr
    exact .ended
  | cons t rest =>
    rw [expect_cons] at hr
    split at hr
    · cases hr
    · cases hr
      exact .token rfl nofun (h t rfl)

theorem ofExcept {x : Except ParseError α} (h : ∀ e, x = .error e → ErrorAt ts e left) :
    Locates ts left (Parser.ofExcept x) := by
  cases x with
  | ok a => exact .pure a
  | error e => exact .fail (h e rfl)

theorem optionally {part : Parser (List Tree)} (h : Locates ts left part) :
    Locates ts left (Parser.optionally sign part) := by
  intro trace e after hr
  rw [optionally_apply] at hr
  split at hr
  · exact h trace e after hr
  · cases hr

end Locates

structure LocatesRuns (ts : List Token) (limit : Nat) (readItems : Char → Parser (List Tree)) :
    Prop where
  sound : ∀ closer, SoundItems (readItems closer) closer
  conserves : ∀ closer, (readItems closer).Conserves forestTokens []
  locates : ∀ closer left, Within ts limit left → Locates ts left (readItems closer)

variable {readItems : Char → Parser (List Tree)}

theorem LocatesRuns.run (h : LocatesRuns ts limit readItems)
    (hr : readItems closer cursor = .ok trees after) :
    ∃ close rest, cursor.unread = forestTokens trees ++ close :: rest ∧
      after.unread = close :: rest ∧ close.isSymbol closer ∧
      Items (forestTokens trees) trees (some close) := by
  obtain ⟨word, close, rest, hw, hu, hc, hi⟩ := h.sound closer _ _ _ hr
  obtain rfl := (h.conserves closer).tokens_eq hr hw
  exact ⟨close, rest, hu ▸ hw, hu, hc, hi⟩

theorem production_locates (h : LocatesRuns ts limit readItems) {production : Production}
    (he : production.enclosesArguments opened) (hu : Within ts limit left)
    (ho : opened → Opened ts left) : Locates ts left (production.read readItems) := by
  have hread := Production.read_conserves h.conserves
  induction production generalizing opened left with
  | done => exact .pure _
  | token expected next ih =>
    apply Locates.comments.bind
    intro trace _ mid hb
    obtain ⟨before, rfl, -, hw, hclear⟩ := comments_eq_ok hb
    apply (Locates.expect hclear expected).bind
    intro trace _ after ht
    obtain ⟨t, rfl, ht, hm⟩ := expect_eq_ok ht
    dsimp only at hw hm
    have hunread : left = before ++ t :: after.unread := by rw [hw, hm]
    refine (ih he ?_ fun hs => ?_).bind fun _ _ _ _ => .pure _
    · exact hu.of_suffix (hunread ▸ (List.suffix_cons t _).trans (List.suffix_append before _))
    · obtain ⟨front, rfl⟩ := hu.suffix
      rw [beq_iff_eq.1 hs] at ht
      exact ⟨front ++ before, t, by rw [hunread, List.append_assoc], ht⟩
  | run closer layout next ih =>
    rw [Production.enclosesArguments, Bool.and_eq_true, Bool.or_eq_true] at he
    apply (h.locates closer left hu).bind
    intro trace trees mid hr
    obtain ⟨close, rest, hw, hm, hc, hi⟩ := h.run hr
    dsimp only at hw
    apply Locates.bind
    · refine .ofExcept fun e ha => ?_
      obtain ⟨rfl, comma, hcomma, hs, rfl⟩ := Layout.arrange_eq_error ha
      have he := he.1.resolve_left (by decide)
      rw [Bool.and_eq_true, beq_iff_eq] at he
      rw [hm]
      exact .argument (hw ▸ ho he.1) hi (he.2 ▸ hc) (mem_forestTokens hcomma) hs
    intro _ arranged _ ha
    obtain ⟨-, rfl⟩ := ofExcept_eq_ok ha
    have hclear : ∀ t, mid.unread.head? = some t → ¬ t.isComment := by
      rw [hm]
      rintro _ ⟨⟩
      exact Token.not_isComment_of_isSymbol hc
    apply (Locates.expect hclear _).bind
    intro _ _ after ht
    obtain ⟨t, rfl, -, hm'⟩ := expect_eq_ok ht
    have hafter : after.unread <:+ left := by
      rw [hw, ← hm, hm']
      exact (List.suffix_cons t _).trans (List.suffix_append _ _)
    exact (ih he.2 (hu.of_suffix hafter) nofun).bind fun _ _ _ _ => .pure _
  | optional sign part next ihp ihn =>
    rw [Production.enclosesArguments, Bool.and_eq_true] at he
    apply (ihp he.1 hu nofun).optionally.bind
    intro trace front mid hf
    have hmid := hu.of_suffix ((hread part).optionally.suffix_of_ok hf)
    exact (ihn he.2 hmid nofun).bind fun _ _ _ _ => .pure _
  | nested construct part next ihp ihn =>
    rw [Production.enclosesArguments, Bool.and_eq_true] at he
    apply Locates.comments.bind
    intro trace _ mid hb
    have hmid := hu.of_suffix (comments_conserves.suffix_of_ok hb)
    apply (ihp he.1 hmid nofun).bind
    intro trace _ after hp
    have hs := (hread part).suffix_of_ok hp
    exact (ihn he.2 (hmid.of_suffix hs) nofun).bind fun _ _ _ _ => .pure _

theorem item_locates (h : LocatesRuns ts limit readItems) (hu : Within ts limit rest) :
    Locates ts (head :: rest) (item readItems head rest) := by
  intro trace e after hr
  cases hc : Choice.of head (significant? rest) with
  | closer =>
    rw [item_closer hc] at hr
    cases hr
  | terminal =>
    rw [item_terminal hc] at hr
    cases hr
  | forbidden =>
    rw [item_forbidden hc] at hr
    cases hr
    refine .token rfl nofun fun hh => ?_
    rw [Choice.of_comment hh] at hc
    cases hc
  | opens rule =>
    rw [item_opens hc] at hr
    have hp := production_locates h rule.enclosesArguments hu nofun
    exact hp.bind (fun _ _ _ _ => .pure _) _ e after hr

theorem items_locates (ts : List Token) (limit : Nat) : LocatesRuns ts limit (items limit) := by
  refine ⟨items_sound limit, items_conserves limit, fun closer left hu => ?_⟩
  induction limit generalizing closer left with
  | zero =>
    rintro trace _ after ⟨⟩
    rw [List.eq_nil_of_length_eq_zero (Nat.le_zero.1 hu.length_le)]
    exact .ended
  | succ limit ih =>
    intro trace e after hr
    cases left with
    | nil =>
      rw [items_nil] at hr
      cases hr
      exact .ended
    | cons head rest =>
      by_cases hh : head.isSymbol closer
      · rw [items_closer limit hh] at hr
        cases hr
      rw [items_cons limit hh] at hr
      have hruns : LocatesRuns ts limit (items limit) :=
        ⟨items_sound limit, items_conserves limit, ih⟩
      have hrest : Within ts limit rest :=
        ⟨(List.suffix_cons head rest).trans hu.suffix, Nat.le_of_succ_le_succ hu.length_le⟩
      refine (item_locates hruns hrest).bind ?_ _ e after hr
      intro trace found mid hf
      cases found with
      | none =>
        obtain ⟨hc, hm⟩ := item_eq_none hf
        rw [hm]
        refine .fail (.token rfl nofun fun hcomment => ?_)
        rw [Choice.of_comment hcomment] at hc
        cases hc
      | some trees =>
        have hmid := item_suffix hruns.sound hf
        exact (ih closer _ (hrest.of_suffix hmid)).bind fun _ _ _ _ => .pure _

theorem classTree_locates (ts : List Token) : Locates ts ts classTree := by
  intro trace e after hr
  rw [classTree_apply] at hr
  have hu : Within ts ts.length ts := ⟨List.suffix_refl ts, Nat.le_refl _⟩
  have he : Production.wholeClass.enclosesArguments false := rfl
  have hclass := production_locates (items_locates ts ts.length) he hu nofun
  refine hclass.bind (fun _ children _ _ => ?_) trace e after hr
  exact Locates.comments.bind fun _ _ _ _ => .pure _

/-- The error of a program stands where the parser stops. -/
theorem program_locates (h : program ⟨ts, trace⟩ = .error e after) : ErrorAt ts e after.unread := by
  rw [program_apply] at h
  split at h
  · next hc =>
    cases h
    exact classTree_locates ts _ _ _ hc
  · cases h
  · next tree t rest _ hc =>
    cases h
    refine .token rfl nofun ?_
    rw [classTree_apply] at hc
    obtain ⟨_, _, _, hc⟩ := bind_eq_ok hc
    obtain ⟨_, _, hcomments, hc⟩ := bind_eq_ok hc
    obtain ⟨_, _, _, _, hclear⟩ := comments_eq_ok hcomments
    cases hc
    exact hclear t rfl

end Parser

end Jack
