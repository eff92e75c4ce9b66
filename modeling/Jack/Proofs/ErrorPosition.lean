import Jack.Proofs.ErrorLocation
import Jack.Proofs.SessionConservation

namespace Jack

theorem ErrorAt.of_parse (h : (parse ts).result = .error e) :
    ErrorAt ts e (Parser.program.remainder ts) := by
  rw [parse_result, Parser.answer] at h
  rw [Parser.remainder]
  cases hr : Parser.program ⟨ts, #[]⟩ with
  | ok tree after =>
    rw [hr] at h
    cases h
  | error e' after =>
    rw [hr] at h
    cases h
    exact Parser.program_locates hr

theorem ParseError.found?_of_subject {e : ParseError} (hs : e.subject? = some t)
    (hm : ∀ comma, e ≠ .missingArgument comma) : e.found? = some t.description := by
  cases e with
  | missingArgument comma => exact absurd rfl (hm comma)
  | unexpectedEnd | unexpected | noRule | mismatchedCloser | trailingInput =>
    exact congrArg (Option.map Token.description) hs

/-- Two positions of an opening parenthesis and of the closing one that belongs to it: what stands
between them are items. -/
inductive Enclosed (ts : List Token) (opened closed : Nat) : Prop where
  | intro (ho : ts[opened]? = some opening) (hs : opening.isSymbol '(')
      (hc : ts[closed]? = some close) (hs' : close.isSymbol ')')
      (hi : Items (ts.extract (opened + 1) closed) items (some close)) : Enclosed ts opened closed

theorem getElem?_append_cons (front : List Token) (t : Token) (rest : List Token) :
    (front ++ t :: rest)[front.length]? = some t := by
  rw [List.getElem?_append_right (Nat.le_refl _), Nat.sub_self]
  rfl

theorem Enclosed.of_append (ho : opening.isSymbol '(') (hc : close.isSymbol ')')
    (hi : Items word items (some close)) (front rest : List Token) :
    Enclosed (front ++ opening :: (word ++ close :: rest)) front.length
      (front ++ opening :: word).length := by
  have hword : (front ++ opening :: (word ++ close :: rest)).extract (front.length + 1)
      (front ++ opening :: word).length = word := by
    have hl : (front ++ opening :: word).length - (front.length + 1) = word.length := by
      rw [List.length_append, List.length_cons]
      omega
    have hd : (front ++ opening :: (word ++ close :: rest)).drop (front.length + 1) =
        word ++ close :: rest := by
      rw [List.drop_append, List.drop_of_length_le (Nat.le_succ _), Nat.add_sub_cancel_left]
      rfl
    rw [List.extract_eq_take_drop, hl, hd, List.take_left]
  have hclose := getElem?_append_cons (front ++ opening :: word) close rest
  rw [List.append_assoc, List.cons_append] at hclose
  exact .intro (getElem?_append_cons _ _ _) ho hclose hc (hword.symm ▸ hi)

theorem exists_enclosed (ho : Opened (front ++ close :: rest) (word ++ close :: rest))
    (hi : Items word items (some close)) (hc : close.isSymbol ')') (hm : t ∈ word) :
    ∃ opened index, Enclosed (front ++ close :: rest) opened front.length ∧ opened < index ∧
      index < front.length ∧ (front ++ close :: rest)[index]? = some t := by
  obtain ⟨before, opening, hb, ho⟩ := ho
  obtain rfl : front = before ++ opening :: word := by
    rw [← List.cons_append, ← List.append_assoc] at hb
    exact List.append_cancel_right hb
  have henclosed := Enclosed.of_append ho hc hi before rest
  rw [← hb] at henclosed
  obtain ⟨inner, outer, rfl⟩ := List.append_of_mem hm
  refine ⟨before.length, (before ++ opening :: inner).length, henclosed, ?_, ?_, ?_⟩
  · simp
  · simp
  · simp

/-- Errors stand at the token where the parser stopped: at the end of the input nothing is found,
elsewhere the token there, which is no comment, is what is found. Only when an argument is missing
the parser stands at the end of the argument list, and a comma inside the list is to blame. -/
theorem error_position (h : (parse ts).result = .error e) :
    let position := (Session.start ts).parseProgram.2.position
    ((∃ expected, e = .unexpectedEnd expected) ↔ position = ts.length) ∧
      ((∀ expected, e ≠ .unexpectedEnd expected) → (∀ comma, e ≠ .missingArgument comma) →
        ∃ t, ts[position]? = some t ∧ ¬ t.isComment ∧ e.found? = some t.description ∧
          e.line? = some t.line) ∧
      ∀ comma, e = .missingArgument comma →
        e.expectation? = some "an expression" ∧ e.line? = some comma.line ∧ comma.isSymbol ',' ∧
          ∃ opened index, Enclosed ts opened position ∧ opened < index ∧ index < position ∧
            ts[index]? = some comma := by
  obtain ⟨front, hts⟩ := Parser.program_conserves.remainder_suffix ts
  have hp : (Session.start ts).parseProgram.2.position = front.length := by
    have hl := congrArg List.length hts
    rw [List.length_append] at hl
    rw [Session.start_position]
    omega
  have hat := ErrorAt.of_parse h
  rw [hp]
  generalize Parser.program.remainder ts = left at hts hat
  subst hts
  intro position
  cases hat with
  | ended =>
    refine ⟨⟨fun _ => ?_, fun _ => ⟨_, rfl⟩⟩, fun hn => absurd rfl (hn _), nofun⟩
    rw [List.append_nil]
  | @token t _ rest hs hm ht =>
    refine ⟨⟨?_, fun hl => ?_⟩, fun _ _ => ?_, fun comma he => absurd he (hm comma)⟩
    · rintro ⟨expected, rfl⟩
      cases hs
    · simp [position] at hl
    · exact ⟨t, getElem?_append_cons front t rest, ht, ParseError.found?_of_subject hs hm,
        congrArg (Option.map Token.line) hs⟩
  | @argument word close rest items comma ho hi hc hm hs =>
    refine ⟨⟨nofun, fun hl => ?_⟩, fun _ hn => absurd rfl (hn _), ?_⟩
    · simp [position] at hl
    · rintro _ ⟨⟩
      exact ⟨rfl, rfl, hs, exists_enclosed ho hi hc hm⟩

theorem lackingClass_stopped :
    (parse lackingClass).result = .error (.missingArgument ⟨.symbol ',', 3⟩) ∧
      (Session.start lackingClass).parseProgram.2.position = 8 ∧
      ∃ opened index, Enclosed lackingClass opened 8 ∧ opened < index ∧ index < 8 ∧
        lackingClass[index]? = some ⟨.symbol ',', 3⟩ := by
  have h : (parse lackingClass).result = .error (.missingArgument ⟨.symbol ',', 3⟩) := rfl
  obtain ⟨-, -, hargument⟩ := error_position h
  obtain ⟨-, -, -, henclosed⟩ := hargument _ rfl
  exact ⟨h, rfl, henclosed⟩

end Jack
