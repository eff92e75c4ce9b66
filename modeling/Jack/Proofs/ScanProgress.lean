import Jack.Proofs.BracketPairing
import Jack.Proofs.Unrolling

namespace Jack

def Token.isCloser (t : Token) : Bool :=
  t.symbol?.any fun char => char == '\x7d' || char == ';' || char == ')' || char == ']'

theorem Choice.ofSymbol_eq_closer_iff :
    ofSymbol char = .closer ↔ char = '\x7d' ∨ char = ';' ∨ char = ')' ∨ char = ']' := by
  unfold ofSymbol
  split <;> simp_all

theorem Choice.ofName_ne_closer (next : Option Token) : ofName next ≠ .closer := by
  intro h
  cases next with
  | none => cases h
  | some t =>
    rw [ofName] at h
    split at h
    · cases h
    · split at h <;> cases h

theorem Choice.of_eq_closer_iff : Choice.of head next = .closer ↔ head.isCloser := by
  obtain ⟨lexeme, line⟩ := head
  cases lexeme with
  | symbol char =>
    change ofSymbol char = .closer ↔ _
    rw [ofSymbol_eq_closer_iff]
    simp [Token.isCloser, Token.symbol?, or_assoc]
  | keyword word =>
    change ofKeyword word = .closer ↔ _
    cases word <;> simp [ofKeyword, Token.isCloser, Token.symbol?]
  | identifier name =>
    change ofName next = .closer ↔ _
    simp [ofName_ne_closer, Token.isCloser, Token.symbol?]
  | integer | string | comment => simp [Choice.of, Token.isCloser, Token.symbol?]

theorem ItemRun.balanced (h : ItemRun trees) : Balanced (brackets (forestTokens trees)) :=
  balanced_iff_closes.2 (.forest trees h.fits.closes h.fits.paired)

theorem Parser.item_progress (h : item (items limit) head rest ⟨head :: rest, trace⟩ =
      .ok (some trees) after) :
    head :: rest = forestTokens trees ++ after.unread ∧ 0 < (forestTokens trees).length ∧
      Balanced (brackets (forestTokens trees)) := by
  have hc := item_conserves (items_conserves limit) head rest trace
  have hleft := (item_suffix (items_sound limit) h).length_le
  have hrun := item_run (items_run limit) h .nil
  rw [h] at hc
  rw [List.append_nil] at hrun
  obtain ⟨word, ht, hw⟩ := hc
  obtain rfl : forestTokens trees = word := ht
  have hl := congrArg List.length hw
  rw [List.length_cons, List.length_append] at hl
  exact ⟨hw, by omega, hrun.balanced⟩

/-- Why a step fails: there is no token ahead, or the item at the next one cannot be read. -/
inductive StepError where
  | noItem
  | unreadable (error : ParseError)
  deriving DecidableEq, Repr

def StepError.message : StepError → String
  | .noItem => "Parse error: unexpected end of input, expected a construct"
  | .unreadable error => error.message

namespace Session

/-- One step of a scan from the position of a session, with the trees already seen, where `scan`
reads the runs in an item. -/
def stepBy (scan : Char → List Tree → Parser (List Tree)) (session : Session) (seen : List Tree) :
    Except StepError (Step × List Tree) × Session :=
  match session.remaining with
  | [] => (.error .noItem, session)
  | head :: rest =>
    let (stage, after) := session.run (Parser.step (scan · []) seen head rest)
    (stage.result.mapError .unreadable, after)

def step (session : Session) (seen : List Tree) : Except StepError (Step × List Tree) × Session :=
  session.stepBy (Parser.limited session.remaining.length) seen

/-- A session has moved on over the tokens of a word. -/
structure Passes (before : Session) (word : List Token) (after : Session) : Prop where
  tokens : after.tokens = before.tokens
  position : after.position = before.position + word.length
  bounded : after.Bounded
  remaining : before.remaining = word ++ after.remaining

/-- What a step does at a session with some trees already seen: it fails, or stays at a closer, or
moves on over a word whose brackets are in pairs, and puts trees with these leaves at the end. -/
inductive Stepped (before : Session) (seen : List Tree) :
    Except StepError (Step × List Tree) → Session → Prop where
  | failed {after : Session} (h : before.Passes word after) : Stepped before seen (.error e) after
  | halted (h : before.remaining = head :: rest) (hc : head.isCloser) :
      Stepped before seen (.ok (.halted, seen)) before
  | continued {after : Session} (h : before.Passes (forestTokens trees) after)
      (hp : before.position < after.position) (hn : Balanced (brackets (forestTokens trees))) :
      Stepped before seen (.ok (.continued, seen ++ trees)) after

inductive Advances : Nat → Session → List Tree → Session → List Tree → Prop where
  | refl : Advances 0 session seen session seen
  | step {after : Session} (h : before.step seen = (.ok (.continued, more), mid))
      (hr : Advances n mid more after trees) : Advances (n + 1) before seen after trees

/-- A session whose scans are unrolled to a depth does the same as with a limit on the tokens that
may be ahead, whatever the scans beyond the depth would do: a step, a scan that goes on after some
trees, a scan with its closer, all that a production reads, and a class. -/
structure Unrolls (session : Session) (beyond : Char → List Tree → Parser (List Tree))
    (depth limit : Nat) (seen : List Tree) : Prop where
  step : session.stepBy (Parser.unrolled beyond depth) seen = session.step seen
  scan closer : session.run (Parser.unrolled beyond depth closer seen) =
    session.run (Parser.limited limit closer seen)
  through closer : session.run (Parser.through (Parser.unrolled beyond depth) closer) =
    session.run (Parser.through (Parser.limited limit) closer)
  production (production : Production) :
    session.run (production.read (Parser.unrolled beyond depth · [])) =
      session.run (production.read (Parser.items limit))
  class_ : session.run (Parser.classBy (Parser.unrolled beyond depth)) = session.parseClass

variable {session before mid after : Session}

theorem Stepped.closer (h : before.Stepped seen (.ok (.halted, trees)) after) :
    ∃ head rest, before.remaining = head :: rest ∧ head.isCloser := by
  cases h with
  | halted hr hc => exact ⟨_, _, hr, hc⟩

theorem Passes.refl (hb : session.Bounded) : session.Passes [] session :=
  ⟨rfl, rfl, hb, rfl⟩

theorem Passes.trans (h : before.Passes word mid) (h' : mid.Passes word' after) :
    before.Passes (word ++ word') after where
  tokens := h'.tokens.trans h.tokens
  position := by rw [h'.position, h.position, List.length_append, Nat.add_assoc]
  bounded := h'.bounded
  remaining := by rw [h.remaining, h'.remaining, List.append_assoc]

theorem run_passes {p : Parser α} (hb : session.Bounded)
    (h : session.remaining = word ++ (lastCursor (p ⟨session.remaining, #[]⟩)).unread) :
    session.Passes word (session.run p).2 := by
  rw [← Parser.remainder_eq] at h
  have hl := congrArg List.length h
  rw [List.length_append] at hl
  have hd : session.remaining.length = session.tokens.length - session.position := List.length_drop
  have hp : (session.run p).2.position = session.position + word.length := by
    rw [Bounded] at hb
    rw [run_position]
    omega
  refine ⟨run_tokens _ _, hp, run_bounded _ _, ?_⟩
  have hr : (session.run p).2.remaining = session.remaining.drop word.length := by
    rw [remaining, run_tokens, hp, ← List.drop_drop]
    rfl
  rw [hr, h, List.drop_left, ← h]

theorem Passes.eq (h : before.Passes [] after) : after = before := by
  obtain ⟨tokens, position⟩ := after
  obtain rfl : tokens = before.tokens := h.tokens
  obtain rfl : position = before.position := h.position
  rfl

theorem stepBy_nil {scan : Char → List Tree → Parser (List Tree)} (h : session.remaining = []) :
    session.stepBy scan seen = (.error .noItem, session) := by
  rw [stepBy, h]

theorem stepBy_cons {scan : Char → List Tree → Parser (List Tree)}
    (h : session.remaining = head :: rest) :
    session.stepBy scan seen =
      (((Parser.step (scan · []) seen head rest).answer (head :: rest)).mapError .unreadable,
        (session.run (Parser.step (scan · []) seen head rest)).2) := by
  have hr := session.run_result (Parser.step (scan · []) seen head rest)
  rw [h] at hr
  rw [stepBy, h, ← hr]

theorem run_step_passes (hb : session.Bounded) (hr : session.remaining = head :: rest)
    (limit : Nat) (seen : List Tree) (word : List Token)
    (h : head :: rest = word ++ (lastCursor (Parser.item (Parser.items limit) head rest
      ⟨head :: rest, #[]⟩)).unread) :
    session.Passes word (session.run (Parser.step (Parser.items limit) seen head rest)).2 := by
  rw [← Parser.step_lastCursor _ seen] at h
  simp only [← hr] at h
  exact run_passes hb h

theorem step_stepped (hb : session.Bounded) (seen : List Tree) :
    session.Stepped seen (session.step seen).1 (session.step seen).2 := by
  rw [step]
  generalize session.remaining.length = limit
  cases hr : session.remaining with
  | nil =>
    rw [stepBy_nil hr]
    exact .failed (.refl hb)
  | cons head rest =>
    rw [stepBy_cons hr]
    simp only [Parser.limited_nil]
    have hp := run_step_passes hb hr limit seen
    cases hi : Parser.item (Parser.items limit) head rest ⟨head :: rest, #[]⟩ with
    | error e left =>
      have hc := Parser.item_conserves (Parser.items_conserves limit) head rest #[]
      rw [hi] at hc hp
      obtain ⟨word, hw⟩ := hc
      rw [Parser.answer, Parser.step_error hi]
      exact .failed (hp word hw.symm)
    | ok found left =>
      rw [hi] at hp
      cases found with
      | none =>
        obtain ⟨hc, hu⟩ := Parser.item_eq_none hi
        rw [Parser.answer, Parser.step_halted hi, (hp [] hu.symm).eq]
        exact .halted hr (Choice.of_eq_closer_iff.1 hc)
      | some trees =>
        obtain ⟨hw, hpos, hn⟩ := Parser.item_progress hi
        rw [Parser.answer, Parser.step_continued hi]
        refine .continued (hp _ hw) ?_ hn
        rw [(hp _ hw).position]
        omega

theorem step_progress (hb : before.Bounded)
    (h : before.step seen = (.ok (.continued, trees), after)) :
    ∃ more, trees = seen ++ more ∧ before.Passes (forestTokens more) after ∧
      before.position < after.position ∧ Balanced (brackets (forestTokens more)) := by
  have hs := step_stepped hb seen
  rw [h] at hs
  cases hs with
  | continued hp hlt hn => exact ⟨_, rfl, hp, hlt, hn⟩

theorem step_halted_iff (hb : session.Bounded) :
    (session.step seen).1 = .ok (.halted, seen) ↔
      ∃ head rest, session.remaining = head :: rest ∧ head.isCloser := by
  constructor
  · intro h
    have hs := step_stepped hb seen
    rw [h] at hs
    exact hs.closer
  · rintro ⟨head, rest, hr, hc⟩
    have hclose : Choice.of head (Parser.significant? rest) = .closer :=
      Choice.of_eq_closer_iff.2 hc
    rw [step, stepBy_cons hr, Parser.answer, Parser.step_halted (Parser.item_closer hclose _) seen]
    rfl

theorem Advances.passes (h : Advances n before seen after trees) (hb : before.Bounded) :
    ∃ more, trees = seen ++ more ∧ before.Passes (forestTokens more) after ∧
      n ≤ (forestTokens more).length ∧ Balanced (brackets (forestTokens more)) := by
  induction h with
  | refl => exact ⟨[], (List.append_nil _).symm, .refl hb, Nat.le_refl 0, .nil⟩
  | step h hr ih =>
    obtain ⟨first, rfl, hp, hlt, hn⟩ := step_progress hb h
    obtain ⟨more, rfl, hp', hle, hn'⟩ := ih hp.bounded
    have hpos := hp.position
    refine ⟨first ++ more, List.append_assoc .., ?_, ?_, ?_⟩
    · rw [forestTokens_append]
      exact hp.trans hp'
    · rw [forestTokens_append, List.length_append]
      omega
    · rw [forestTokens_append, brackets_append]
      exact hn.append hn'

theorem exists_last (hb : session.Bounded) (seen : List Tree) :
    ∃ n after trees, Advances n session seen after trees ∧
      ∀ more, (after.step trees).1 ≠ .ok (.continued, more) := by
  -- Each step that goes on leaves fewer tokens ahead.
  induction hl : session.remaining.length using Nat.strong_induction_on
    generalizing session seen with
  | _ length ih =>
    by_cases h : ∃ more, (session.step seen).1 = .ok (.continued, more)
    · obtain ⟨more, h⟩ := h
      have hs : session.step seen = (.ok (.continued, more), (session.step seen).2) :=
        Prod.ext h rfl
      obtain ⟨first, -, hp, hlt, -⟩ := step_progress hb hs
      have hpos := hp.position
      have hrest := congrArg List.length hp.remaining
      rw [List.length_append] at hrest
      obtain ⟨n, after, trees, ha, hlast⟩ := ih _ (by omega) hp.bounded more rfl
      exact ⟨n + 1, after, trees, .step hs ha, hlast⟩
    · exact ⟨0, session, seen, .refl, fun more hm => h ⟨more, hm⟩⟩

theorem run_congr {p q : Parser α} (h : Parser.Coincides session.remaining.length p q) :
    session.run p = session.run q := by
  rw [run, run, (h _ (Nat.le_refl _)).1]

theorem stepBy_congr {scan scan' : Char → List Tree → Parser (List Tree)}
    (h : ∀ closer, Parser.Coincides session.remaining.length (scan closer []) (scan' closer []))
    (seen : List Tree) : session.stepBy scan seen = session.stepBy scan' seen := by
  cases hr : session.remaining with
  | nil => rw [stepBy_nil hr, stepBy_nil hr]
  | cons head rest =>
    have hl : rest.length ≤ session.remaining.length := by
      rw [hr]
      exact Nat.le_succ _
    rw [stepBy_cons hr, stepBy_cons hr, funext (Parser.step_coincides h hl seen head)]

theorem unrolls (beyond : Char → List Tree → Parser (List Tree))
    (hd : session.remaining.length < depth) (hl : session.remaining.length ≤ limit)
    (seen : List Tree) : session.Unrolls beyond depth limit seen := by
  have hscan := Parser.limited_coincides beyond hd hl
  have hnone (closer : Char) := hscan closer []
  have hfull (closer : Char) := Parser.limited_coincides beyond hd (Nat.le_refl _) closer []
  constructor
  · exact (stepBy_congr hfull seen).symm
  · exact fun closer => (run_congr (hscan closer seen)).symm
  · exact fun closer => (run_congr (Parser.through_coincides hnone closer)).symm
  · intro production
    simp only [Parser.limited_nil] at hnone
    exact (run_congr (Parser.production_coincides hnone production)).symm
  · have hc := run_congr (Parser.classBy_coincides hfull)
    rw [← hc, parseClass, run, run, Parser.classTree_eq_classBy]

theorem run_items (hb : session.Bounded)
    (h : (session.run (Parser.items limit closer)).1.result = .ok trees) :
    session.Passes (forestTokens trees) (session.run (Parser.items limit closer)).2 ∧
      Balanced (brackets (forestTokens trees)) ∧
      ∃ head rest, (session.run (Parser.items limit closer)).2.remaining = head :: rest ∧
        head.isSymbol closer := by
  rw [run_result, Parser.answer_eq_ok_iff] at h
  obtain ⟨left, hr⟩ := h
  obtain ⟨word, head, rest, hw, hu, hc, -⟩ := Parser.items_sound limit closer _ _ _ hr
  obtain rfl := (Parser.items_conserves limit closer).tokens_eq hr hw
  have hp : session.Passes (forestTokens trees) (session.run (Parser.items limit closer)).2 := by
    apply run_passes hb
    rw [hr]
    exact hw
  refine ⟨hp, (Parser.items_run limit closer _ _ _ hr).balanced, head, rest, ?_, hc⟩
  have he := hp.remaining.symm.trans hw
  exact (List.append_cancel_left he).trans hu

end Session

/-- From every position a step fails, or stays where it is, which happens exactly at a closer, or
moves on over a word whose brackets are in pairs, whose tokens are the leaves of the trees that it
puts at the end. So steps end, at most one after each token, and so does all that is read by scans,
although nothing counts their rounds. A scan that succeeds stops at its closer. -/
theorem scans_progress_and_end {session : Session} (hb : session.Bounded) (seen : List Tree) :
    session.Stepped seen (session.step seen).1 (session.step seen).2 ∧
    ((session.step seen).1 = .ok (.halted, seen) ↔
      ∃ head rest, session.remaining = head :: rest ∧ head.isCloser) ∧
    (∃ n after trees, Session.Advances n session seen after trees ∧
      n ≤ session.remaining.length ∧ ∀ more, (after.step trees).1 ≠ .ok (.continued, more)) ∧
    (∀ beyond depth limit, session.remaining.length < depth → session.remaining.length ≤ limit →
      session.Unrolls beyond depth limit seen) ∧
    ∀ limit closer trees, (session.run (Parser.items limit closer)).1.result = .ok trees →
      session.Passes (forestTokens trees) (session.run (Parser.items limit closer)).2 ∧
      Balanced (brackets (forestTokens trees)) ∧
      ∃ head rest, (session.run (Parser.items limit closer)).2.remaining = head :: rest ∧
        head.isSymbol closer := by
  refine ⟨Session.step_stepped hb seen, Session.step_halted_iff hb, ?_, ?_, ?_⟩
  · obtain ⟨n, after, trees, ha, hlast⟩ := Session.exists_last hb seen
    obtain ⟨more, -, hp, hn, -⟩ := ha.passes hb
    have hl := congrArg List.length hp.remaining
    rw [List.length_append] at hl
    exact ⟨n, after, trees, ha, by omega, hlast⟩
  · exact fun beyond depth limit hd hl => Session.unrolls beyond hd hl seen
  · exact fun limit closer trees => Session.run_items hb

/-- A term in parentheses, and a call that a semicolon cuts off. -/
def cutCall : List Token :=
  [⟨.symbol '(', 1⟩, ⟨.identifier "a", 1⟩, ⟨.symbol ')', 1⟩, ⟨.identifier "f", 2⟩,
   ⟨.symbol '(', 2⟩, ⟨.identifier "b", 2⟩, ⟨.symbol ';', 2⟩, ⟨.symbol ')', 3⟩]

theorem cutCall_scanned :
    let session : Session := ⟨cutCall, 0⟩
    let argument : Session := ⟨cutCall, 5⟩
    let semicolon : Token := ⟨.symbol ';', 2⟩
    let never : Char → List Tree → Parser (List Tree) := fun _ _ => Parser.fail (.noRule semicolon)
    (session.Stepped [] (session.step []).1 (session.step []).2 ∧
      (session.step []).2.position = 3) ∧
    (session.Unrolls never 9 8 [] ∧ (session.run (Parser.unrolled never 9 ';' [])).1.result =
      .error (.mismatchedCloser ')' semicolon)) ∧
    argument.Passes [⟨.identifier "b", 2⟩] (argument.run (Parser.items 3 ';')).2 ∧
      ∃ head rest, (argument.run (Parser.items 3 ';')).2.remaining = head :: rest ∧
        head.isSymbol ';' := by
  intro session argument semicolon never
  have hstart : session.Bounded := Nat.zero_le 8
  have hinner : argument.Bounded := Nat.le_add_right 5 3
  obtain ⟨hs, -, -, hu, -⟩ := scans_progress_and_end hstart []
  obtain ⟨-, -, -, -, hi⟩ := scans_progress_and_end hinner []
  obtain ⟨hp, -, hc⟩ := hi 3 ';' [.leaf ⟨.identifier "b", 2⟩] rfl
  exact ⟨⟨hs, rfl⟩, ⟨hu never 9 8 (by decide) (by decide), rfl⟩, hp, hc⟩

end Jack
