import Jack.Proofs.Conservation

namespace Jack

theorem Parser.remainder_eq (p : Parser α) (ts : List Token) :
    p.remainder ts = (lastCursor (p ⟨ts, #[]⟩)).unread := by
  rw [remainder]
  cases p ⟨ts, #[]⟩ <;> rfl

theorem Parser.Conserves.remainder_suffix {tokensOf : α → List Token} {p : Parser α}
    (h : p.Conserves tokensOf []) (ts : List Token) : p.remainder ts <:+ ts := by
  rw [remainder_eq]
  exact h.suffix _

namespace Session

def Bounded (session : Session) : Prop := session.position ≤ session.tokens.length

variable {session : Session} {p : Parser Tree}

theorem run_remaining (hp : p.Conserves Tree.tokens []) :
    (session.run p).2.remaining = p.remainder session.remaining := by
  have hs := (hp.remainder_suffix session.remaining).trans (List.drop_suffix _ _)
  rw [remaining, run_tokens, run_position]
  exact (List.suffix_iff_eq_drop.1 hs).symm

theorem run_position_le (hp : p.Conserves Tree.tokens []) (hb : session.Bounded) :
    session.position ≤ (session.run p).2.position := by
  have hs := (hp.remainder_suffix session.remaining).length_le
  rw [remaining, List.length_drop] at hs
  rw [Bounded] at hb
  rw [run_position, remaining]
  omega

theorem run_bounded (session : Session) (p : Parser α) : (session.run p).2.Bounded := by
  rw [Bounded, run_position, run_tokens]
  exact Nat.sub_le _ _

theorem remaining_of_run (hp : p.Conserves Tree.tokens [])
    (h : (session.run p).1.result = .ok tree) :
    session.remaining = tree.tokens ++ (session.run p).2.remaining := by
  rw [run_result, Parser.answer_eq_ok_iff] at h
  obtain ⟨after, hr⟩ := h
  have hc := hp ⟨session.remaining, #[]⟩
  rw [hr] at hc
  obtain ⟨word, ht, hw⟩ := hc
  rw [run_remaining hp, Parser.remainder, hr, ht]
  exact hw

theorem extract_of_remaining {before after : Session} (ht : after.tokens = before.tokens)
    (hb : before.Bounded) (ha : after.Bounded) (hr : before.remaining = word ++ after.remaining) :
    word = before.tokens.extract before.position after.position := by
  have hl := congrArg List.length hr
  simp only [remaining, List.length_append, List.length_drop, ht] at hl
  simp only [Bounded, ht] at hb ha
  have he : after.position - before.position = word.length := by omega
  rw [List.extract_eq_take_drop, he]
  change word = before.remaining.take word.length
  rw [hr, List.take_left]

end Session

/-- What can be asked of a session. -/
inductive Request where
  | class_ | program
  deriving DecidableEq, Repr

def Request.reader : Request → Parser Tree
  | .class_ => Parser.classTree
  | .program => Parser.program

def Session.perform (session : Session) : Request → Traced ParseError Tree × Session
  | .class_ => session.parseClass
  | .program => session.parseProgram

/-- The session after a sequence of requests, some of which may have failed. -/
def Session.after (session : Session) : List Request → Session
  | [] => session
  | request :: requests => (session.perform request).2.after requests

theorem Request.reader_conserves (request : Request) :
    request.reader.Conserves Tree.tokens [] := by
  cases request with
  | class_ => exact Parser.classTree_conserves
  | program => exact Parser.program_conserves

namespace Session

theorem perform_session (session : Session) (request : Request) :
    (session.perform request).2 = (session.run request.reader).2 := by
  cases request <;> rfl

theorem perform_result (session : Session) (request : Request) :
    (session.perform request).1.result = request.reader.answer session.remaining := by
  cases request with
  | class_ => exact session.run_result _
  | program => exact session.parseProgram_result

theorem after_tokens (session : Session) (requests : List Request) :
    (session.after requests).tokens = session.tokens := by
  induction requests generalizing session with
  | nil => rfl
  | cons request requests ih =>
    rw [after, ih, perform_session, run_tokens]

theorem after_bounded {session : Session} (h : session.Bounded) (requests : List Request) :
    (session.after requests).Bounded := by
  induction requests generalizing session with
  | nil => exact h
  | cons request requests ih =>
    apply ih
    rw [perform_session]
    exact run_bounded session _

/-- One request keeps the tokens, moves the position forward to where the reader stopped, and
answers with a tree of the tokens it passed. -/
theorem perform_conserves {before : Session} (hb : before.Bounded) (request : Request) :
    (before.perform request).2.tokens = before.tokens ∧
    before.position ≤ (before.perform request).2.position ∧
    (before.perform request).2.Bounded ∧
    (before.perform request).2.remaining = request.reader.remainder before.remaining ∧
    ∀ tree, (before.perform request).1.result = .ok tree →
      tree.tokens = before.tokens.extract before.position (before.perform request).2.position := by
  have hc := request.reader_conserves
  rw [perform_session, perform_result, ← run_result]
  refine ⟨run_tokens _ _, run_position_le hc hb, run_bounded _ _, run_remaining hc, ?_⟩
  intro tree h
  exact extract_of_remaining (run_tokens _ _) hb (run_bounded _ _) (remaining_of_run hc h)

end Session

theorem tokens_of_parse (h : (parse ts).result = .ok tree) : tree.tokens = ts := by
  obtain ⟨trace, hc⟩ := parse_eq_ok_iff.1 h
  have hs := Parser.classTree_conserves ⟨ts, #[]⟩
  rw [hc] at hs
  obtain ⟨word, ht, hw⟩ := hs
  simpa [ht] using hw.symm

/-- Over any sequence of requests, failed ones among them, a session keeps its tokens, its position
only moves forward and stays within them, and each tree that is returned has the tokens between the
positions before and after. -/
theorem requests_conserve_tokens (ts : List Token) :
    (∀ requests request,
      let before := (Session.start ts).after requests
      let after := (before.perform request).2
      before.tokens = ts ∧ after.tokens = ts ∧
      before.position ≤ after.position ∧ after.position ≤ ts.length ∧
      after.remaining = request.reader.remainder before.remaining ∧
      ∀ tree, (before.perform request).1.result = .ok tree →
        tree.tokens = ts.extract before.position after.position) ∧
    ∀ tree, (parse ts).result = .ok tree → tree.tokens = ts := by
  refine ⟨fun requests request => ?_, fun tree => tokens_of_parse⟩
  intro before after
  have ht : before.tokens = ts := Session.after_tokens _ _
  have hb : before.Bounded := Session.after_bounded (Nat.zero_le _) requests
  obtain ⟨hk, hp, hl, hr, htree⟩ := Session.perform_conserves hb request
  refine ⟨ht, hk.trans ht, hp, ?_, hr, ?_⟩
  · rw [Session.Bounded, hk, ht] at hl
    exact hl
  · rw [← ht]
    exact htree

/-- Two classes, of which a session reads the first and reports the second as trailing input. -/
def twoClasses : List Token :=
  [⟨.keyword .class_, 1⟩, ⟨.identifier "Main", 1⟩, ⟨.symbol '\x7b', 1⟩, ⟨.symbol '\x7d', 1⟩,
   ⟨.keyword .class_, 2⟩, ⟨.comment "// next", 2⟩, ⟨.identifier "Next", 3⟩, ⟨.symbol '\x7b', 3⟩,
   ⟨.symbol '\x7d', 3⟩]

theorem second_class_after_failure :
    let before := (Session.start twoClasses).after [.program]
    let tree := Tree.node .class_ ((twoClasses.drop 4).map .leaf)
    (before.perform .class_).1.result = .ok tree ∧ before.position = 4 ∧
      tree.tokens = twoClasses.extract before.position (before.perform .class_).2.position ∧
      tree.tokens = twoClasses.extract 4 9 := by
  have h : (((Session.start twoClasses).after [.program]).perform .class_).1.result =
      .ok (.node .class_ ((twoClasses.drop 4).map .leaf)) := rfl
  obtain ⟨_, _, _, _, _, htree⟩ := (requests_conserve_tokens twoClasses).1 [.program] .class_
  exact ⟨h, rfl, htree _ h, htree _ h⟩

end Jack
