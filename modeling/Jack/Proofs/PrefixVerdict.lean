import Jack.Proofs.ErrorLocation
import Jack.Proofs.Locality

namespace Jack

theorem append_of_take_eq {front rest ts : List α} {t : α}
    (h : ts.take (front.length + 1) = (front ++ t :: rest).take (front.length + 1)) :
    ∃ more, ts = front ++ t :: more := by
  have hw : (front ++ t :: rest).take (front.length + 1) = front ++ [t] := by
    rw [List.append_cons]
    exact List.take_left' List.length_append
  have hts := List.take_append_drop (front.length + 1) ts
  rw [h, hw, ← List.append_cons] at hts
  exact ⟨_, hts.symm⟩

namespace Parser

theorem program_error_of_prefix (h : program ⟨ts, #[]⟩ = .error e cursor)
    (he : ∀ expected, e ≠ .unexpectedEnd expected) :
    ∃ front t rest, ts = front ++ t :: rest ∧
      ∀ more, ∃ trace, program ⟨front ++ t :: more, #[]⟩ = .error e ⟨t :: more, trace⟩ := by
  obtain ⟨t, rest, hu, ht⟩ := (program_locates h).exists_token he
  have hsuffix := program_conserves.suffix ⟨ts, #[]⟩
  rw [h] at hsuffix
  change cursor.unread <:+ ts at hsuffix
  rw [hu] at hsuffix
  obtain ⟨front, rfl⟩ := hsuffix
  refine ⟨front, t, rest, rfl, fun more => ⟨cursor.trace, ?_⟩⟩
  have hl := program_local (front ++ [t]) rest more #[]
  simp only [List.append_assoc, List.singleton_append, h] at hl
  exact hl [t] hu ⟨t, List.mem_singleton_self t, ht⟩

/-- A class that is accepted on its own is read from every list that it starts, unless a comment
follows it. -/
theorem classTree_of_parse (h : (parse ts).result = .ok tree)
    (hh : ∀ t, rest.head? = some t → ¬ t.isComment) :
    ∃ trace, classTree ⟨ts ++ rest, #[]⟩ = .ok tree ⟨rest, trace⟩ := by
  obtain ⟨trace, hc⟩ := parse_eq_ok_iff.1 h
  exact Reads.of_derives_append (derives_of_classTree hc) hh #[]

end Parser

namespace Session

theorem parseProgram_of_error {front rest : List Token} {trace : Array Dispatch}
    (h : Parser.program ⟨front ++ rest, #[]⟩ = .error e ⟨rest, trace⟩) :
    (start (front ++ rest)).parseProgram.1.result = .error e ∧
      (start (front ++ rest)).parseProgram.2.position = front.length := by
  have hs : (start (front ++ rest)).remaining = front ++ rest := rfl
  constructor
  · rw [parseProgram_result, hs, Parser.answer, h]
  · change ((start (front ++ rest)).run Parser.program).2.position = _
    rw [run_position, hs, Parser.remainder, h]
    change (front ++ rest).length - rest.length = _
    rw [List.length_append, Nat.add_sub_cancel]

theorem parseProgram_of_prefix (h : (start ts).parseProgram.1.result = .error e)
    (he : ∀ expected, e ≠ .unexpectedEnd expected)
    (ht : ts'.take ((start ts).parseProgram.2.position + 1) =
      ts.take ((start ts).parseProgram.2.position + 1)) :
    (start ts').parseProgram.1.result = .error e ∧
      (start ts').parseProgram.2.position = (start ts).parseProgram.2.position := by
  have hs : (start ts).remaining = ts := rfl
  rw [parseProgram_result, hs, Parser.answer] at h
  cases hp : Parser.program ⟨ts, #[]⟩ with
  | ok tree cursor => simp [hp] at h
  | error e' cursor =>
    simp only [hp, Except.error.injEq] at h
    subst e'
    obtain ⟨front, t, rest, rfl, hmore⟩ := Parser.program_error_of_prefix hp he
    obtain ⟨trace, hfirst⟩ := hmore rest
    have hposition := (parseProgram_of_error hfirst).2
    rw [hposition] at ht ⊢
    obtain ⟨more, rfl⟩ := append_of_take_eq ht
    obtain ⟨trace', hsecond⟩ := hmore more
    exact parseProgram_of_error hsecond

theorem parseClass_append (h : (parse ts).result = .ok tree)
    (hh : ∀ t, rest.head? = some t → ¬ t.isComment) :
    (start (ts ++ rest)).parseClass.1.result = .ok tree ∧
      (start (ts ++ rest)).parseClass.2.remaining = rest := by
  obtain ⟨trace, hr⟩ := Parser.classTree_of_parse h hh
  have hs : (start (ts ++ rest)).remaining = ts ++ rest := rfl
  constructor
  · change ((start (ts ++ rest)).run Parser.classTree).1.result = _
    rw [run_result, hs, Parser.answer, hr]
  · change ((start (ts ++ rest)).run Parser.classTree).2.remaining = _
    rw [run_remaining Parser.classTree_conserves, hs, Parser.remainder, hr]

end Session

theorem parse_append_of_ok (h : (parse ts).result = .ok tree) (ht : ¬ t.isComment) :
    (parse (ts ++ t :: rest)).result = .error (.trailingInput t) := by
  have hh : ∀ u, (t :: rest).head? = some u → ¬ u.isComment := by
    rintro _ ⟨⟩
    exact ht
  obtain ⟨trace, hr⟩ := Parser.classTree_of_parse h hh
  rw [parse_result, Parser.answer, Parser.program_apply, hr]

/-- The verdict of the parser depends on the tokens up to where it stops only. An error before the
end of the input is the same, at the same position, for all token lists that agree up to and with
the token there. A class that is accepted on its own is read from every list that it starts, unless
a comment follows, and what follows is left unread and reported as trailing input. -/
theorem verdict_of_prefix :
    (∀ ts ts' e,
      let stopped := (Session.start ts).parseProgram
      let stopped' := (Session.start ts').parseProgram
      stopped.1.result = .error e → (∀ expected, e ≠ .unexpectedEnd expected) →
      ts'.take (stopped.2.position + 1) = ts.take (stopped.2.position + 1) →
      stopped'.1.result = .error e ∧ stopped'.2.position = stopped.2.position) ∧
    ∀ ts tree rest, (parse ts).result = .ok tree → (∀ t, rest.head? = some t → ¬ t.isComment) →
      let read := (Session.start (ts ++ rest)).parseClass
      read.1.result = .ok tree ∧ read.2.remaining = rest ∧
        ∀ t more, rest = t :: more → (parse (ts ++ rest)).result = .error (.trailingInput t) := by
  constructor
  · intro ts ts' e stopped stopped' h he ht
    exact Session.parseProgram_of_prefix h he ht
  · intro ts tree rest h hh read
    obtain ⟨hr, hu⟩ := Session.parseClass_append h hh
    refine ⟨hr, hu, ?_⟩
    rintro t more rfl
    exact parse_append_of_ok h (hh t rfl)

def emptyClass : List Token :=
  [⟨.keyword .class_, 1⟩, ⟨.identifier "Main", 1⟩, ⟨.symbol '\x7b', 1⟩, ⟨.symbol '\x7d', 1⟩]

def brokenClass : List Token :=
  [⟨.keyword .class_, 1⟩, ⟨.identifier "Main", 1⟩, ⟨.symbol '\x7b', 1⟩, ⟨.symbol ')', 2⟩]

theorem verdict_of_brokenClass :
    let longer := brokenClass ++ [⟨.symbol '\x7d', 2⟩, ⟨.comment "// end", 2⟩]
    let stopped := (Session.start longer).parseProgram
    let next : Token := ⟨.keyword .class_, 3⟩
    let read := (Session.start (emptyClass ++ [next])).parseClass
    (stopped.1.result = .error (.mismatchedCloser '\x7d' ⟨.symbol ')', 2⟩) ∧
      stopped.2.position = 3) ∧
    read.2.remaining = [next] ∧
      (parse (emptyClass ++ [next])).result = .error (.trailingInput next) := by
  intro longer stopped next read
  obtain ⟨hstop, hread⟩ := verdict_of_prefix
  have hnext : ∀ t, [next].head? = some t → ¬ t.isComment := by
    rintro _ ⟨⟩
    exact Bool.false_ne_true
  obtain ⟨-, hremaining, htrailing⟩ := hread emptyClass _ [next] rfl hnext
  refine ⟨hstop brokenClass longer _ rfl ?_ rfl, hremaining, htrailing next [] rfl⟩
  exact fun _ => ParseError.noConfusion

end Jack
