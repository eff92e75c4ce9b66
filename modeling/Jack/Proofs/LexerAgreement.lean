import Jack.Proofs.Classification
import Jack.Proofs.Scanner
import Jack.Source

namespace Jack

def segmentTokens (line : Nat) (segments : List (List Char)) : List Token :=
  segments.map fun segment => ⟨Lexeme.ofSegment (String.ofList segment), line⟩

theorem segmentTokens_word (line : Nat) (word : List Char) :
    segmentTokens line (wordSegments word) = wordTokens line word := by
  cases word <;> rfl

theorem withoutComments_segmentTokens (line : Nat) (segments : List (List Char)) :
    withoutComments (segmentTokens line segments) = segmentTokens line segments := by
  apply List.filter_eq_self.2
  intro t ht
  obtain ⟨segment, _, rfl⟩ := List.mem_map.1 ht
  rw [Bool.not_eq_true', Bool.eq_false_iff]
  intro hc
  obtain ⟨text, he⟩ := Token.isComment_iff.1 hc
  exact Lexeme.ofSegment_ne_comment _ _ he

section Parts

variable {line : Nat}

theorem splitCode_quote (inString : Bool) (cs : List Char) :
    splitCode line inString ('"' :: cs) = (splitCode line (!inString) cs).addCode '"' := by
  cases inString <;> rfl

theorem splitCode_in_string (h : c ≠ '"') (cs : List Char) :
    splitCode line true (c :: cs) = (splitCode line true cs).addCode c := by
  rw [splitCode, if_neg h]
  · exact fun _ hs => Bool.noConfusion hs
  · exact fun _ hs => Bool.noConfusion hs

theorem splitCode_in_code (h : c ≠ '"') (hl : ∀ rest, c = '/' → cs ≠ '/' :: rest)
    (hb : ∀ rest, c = '/' → cs ≠ '*' :: rest) :
    splitCode line false (c :: cs) = (splitCode line false cs).addCode c := by
  rw [splitCode, if_neg h]
  · exact fun rest _ => hl rest
  · exact fun rest _ => hb rest

theorem splitCode_block (line : Nat) (cs : List Char) :
    (splitCode line false ('/' :: '*' :: cs)).code = ' ' :: (splitBlock line line cs).2.code ∧
      (splitCode line false ('/' :: '*' :: cs)).openBlock =
        (splitBlock line line cs).2.openBlock :=
  ⟨rfl, rfl⟩

theorem splitBlock_cons (h : ∀ rest, c = '*' → cs ≠ '/' :: rest) (opened : Nat) :
    (splitBlock line opened (c :: cs)).2 = (splitBlock line opened cs).2 := by
  rw [splitBlock]
  exact h

end Parts

namespace ScanState

/-- The parts of the rest of a line, from where a scanner stands. -/
def parts (line : Nat) : ScanState → List Char → LineParts
  | .code _, cs => splitCode line false cs
  | .string _, cs => splitCode line true cs
  | .block opened, cs => (splitBlock line opened cs).2

/-- The segments of the rest of the code, together with what a scanner has read of the first. -/
def segments? : ScanState → List Char → Option (List (List Char))
  | .code word, cs => Jack.segments? (word ++ cs)
  | .string body, cs =>
    (closeQuote? cs).bind fun (more, rest) =>
      (Jack.segments? rest).map (quoted (body ++ more) :: ·)
  | .block _, cs => Jack.segments? cs

def InWord : ScanState → Prop
  | .code word => ∀ c ∈ word, Text.isWord c
  | _ => True

end ScanState

/-- The parts of a line from one place are what a scanner finds: the same open block comment, and
the same tokens unless a string is left open. -/
structure Agrees (line : Nat) (state : ScanState) (parts : LineParts)
    (found : List Token × ScanState) : Prop where
  openBlock : parts.openBlock = found.2.openBlock
  tokens : (state.segments? parts.code).map (segmentTokens line) =
    if found.2.inString then none else some found.1

theorem Agrees.emit (h : Agrees line state parts found) (ho : parts'.openBlock = parts.openBlock)
    (hs : state'.segments? parts'.code = (state.segments? parts.code).map (done ++ ·)) :
    Agrees line state' parts' (segmentTokens line done ++ found.1, found.2) := by
  refine ⟨ho.trans h.openBlock, ?_⟩
  have ht := congrArg (Option.map (segmentTokens line done ++ ·)) h.tokens
  rw [Option.map_map] at ht
  rw [hs, Option.map_map]
  refine (congrArg (Option.map · _) (funext fun segments => List.map_append)).trans (ht.trans ?_)
  split <;> rfl

theorem Agrees.pass (h : Agrees line state parts found) (ho : parts'.openBlock = parts.openBlock)
    (hs : state'.segments? parts'.code = state.segments? parts.code) :
    Agrees line state' parts' found := by
  refine ⟨ho.trans h.openBlock, ?_⟩
  rw [hs, h.tokens]

section Steps

variable {word body cs : List Char}

theorem segments?_end_of_code (hw : ∀ c ∈ word, Text.isWord c) :
    (ScanState.code word).segments? [] = some (wordSegments word) := by
  have hr : ∀ c, ([] : List Char).head? = some c → ¬ Text.isWord c := fun c hc => nomatch hc
  rw [ScanState.segments?, segments?_word hw hr, segments?_nil, Option.map_some, List.append_nil]

theorem segments?_opening_quote (hw : ∀ c ∈ word, Text.isWord c) :
    (ScanState.code word).segments? ('"' :: cs) =
      ((ScanState.string []).segments? cs).map (wordSegments word ++ ·) := by
  have hq : ∀ c, ('"' :: cs).head? = some c → ¬ Text.isWord c := by
    rintro _ ⟨⟩
    exact Text.not_isWord_quote
  rw [ScanState.segments?, segments?_word hw hq, segments?_quote]
  rfl

theorem segments?_closing_quote :
    (ScanState.string body).segments? ('"' :: cs) =
      ((ScanState.code []).segments? cs).map ([quoted body] ++ ·) := by
  simp only [ScanState.segments?, closeQuote?, Option.bind_some, List.append_nil]
  rfl

theorem segments?_in_string (h : c ≠ '"') :
    (ScanState.string body).segments? (c :: cs) =
      (ScanState.string (body ++ [c])).segments? cs := by
  rw [ScanState.segments?, closeQuote?_cons_of_ne h, Option.bind_map, ScanState.segments?]
  simp only [Function.comp_def, List.append_assoc, List.singleton_append]

theorem segments?_separator (hw : ∀ c ∈ word, Text.isWord c) (hc : ¬ Text.isWord c)
    (hq : c ≠ '"') :
    (ScanState.code word).segments? (c :: cs) =
      ((ScanState.code []).segments? cs).map
        (wordSegments word ++ (if Text.isBlank c then [] else [[c]]) ++ ·) := by
  have hh : ∀ d, (c :: cs).head? = some d → ¬ Text.isWord d := by
    rintro _ ⟨⟩
    exact hc
  rw [ScanState.segments?, segments?_word hw hh]
  by_cases hb : Text.isBlank c
  · rw [segments?_blank hb, if_pos hb, List.append_nil]
    rfl
  · rw [segments?_single hq hb hc, if_neg hb, Option.map_map]
    simp only [Function.comp_def, List.append_assoc]
    rfl

end Steps

/-- Taking a line apart and cutting its code into segments is scanning it once. -/
theorem agrees_scanLine (line : Nat) (state : ScanState) (cs : List Char) (h : state.InWord) :
    Agrees line state (state.parts line cs) (scanLine line state cs) := by
  have hnil : (ScanState.code []).InWord := fun c hc => nomatch hc
  fun_induction scanLine line state cs with
  | case1 word =>
    refine ⟨rfl, ?_⟩
    rw [ScanState.parts, splitCode, segments?_end_of_code h, Option.map_some, segmentTokens_word]
    rfl
  | case2 word cs tokens last hs ih =>
    rw [hs] at ih
    rw [← segmentTokens_word, ScanState.parts, splitCode_quote]
    exact (ih trivial).emit rfl (segments?_opening_quote h)
  | case3 word rest =>
    refine ⟨rfl, ?_⟩
    rw [ScanState.parts, splitCode, segments?_end_of_code h, Option.map_some, segmentTokens_word]
    rfl
  | case4 word cs tokens last hs ih =>
    rw [hs] at ih
    obtain ⟨hc, ho⟩ := splitCode_block line cs
    have hb : ¬ Text.isWord ' ' := Text.not_isWord_of_isBlank Text.isBlank_space
    rw [← segmentTokens_word, ScanState.parts]
    refine (ih trivial).emit ho ?_
    rw [hc, segments?_separator h hb (by decide), if_pos Text.isBlank_space, List.append_nil]
    rfl
  | case5 word c cs hq hl hb hw ih =>
    have hword : (ScanState.code (word ++ [c])).InWord := by
      simpa [ScanState.InWord, or_imp, forall_and] using ⟨h, hw⟩
    rw [ScanState.parts, splitCode_in_code hq hl hb]
    refine (ih hword).pass rfl ?_
    rw [ScanState.segments?, ScanState.segments?, List.append_assoc]
    rfl
  | case6 word c cs hq hl hb hw single tokens last hs ih =>
    rw [hs] at ih
    have hd : segmentTokens line (wordSegments word ++ if Text.isBlank c then [] else [[c]]) =
        wordTokens line word ++ single := by
      rw [segmentTokens, List.map_append]
      refine congrArg₂ (· ++ ·) (segmentTokens_word line word) ?_
      exact apply_ite _ _ _ _
    rw [ScanState.parts, splitCode_in_code hq hl hb, ← hd]
    exact (ih hnil).emit rfl (segments?_separator h hw hq)
  | case7 body => exact ⟨rfl, rfl⟩
  | case8 body cs tokens last hs ih =>
    rw [hs] at ih
    rw [← Lexeme.ofSegment_quoted, ScanState.parts, splitCode_quote]
    change Agrees line _ _ (segmentTokens line [quoted body] ++ tokens, last)
    exact (ih hnil).emit rfl segments?_closing_quote
  | case9 body c cs hq ih =>
    rw [ScanState.parts, splitCode_in_string hq]
    exact (ih trivial).pass rfl (segments?_in_string hq)
  | case10 opened =>
    refine ⟨rfl, ?_⟩
    rw [ScanState.parts, splitBlock, ScanState.segments?, segments?_nil]
    rfl
  | case11 opened cs ih => exact (ih hnil).pass rfl rfl
  | case12 opened c cs hc ih =>
    rw [ScanState.parts, splitBlock_cons hc]
    exact (ih trivial).pass rfl rfl

theorem segments?_codePart (parts : LineParts) :
    segments? (SourceLine.ofParts parts).codePart.toList = segments? parts.code := by
  rw [SourceLine.ofParts]
  split
  · rw [SourceLine.codePart, String.toList_ofList, segments?_trimEnd]
  split
  · next hb =>
    rw [segments?_blanks (List.all_eq_true.1 hb)]
    exact segments?_nil
  · rw [SourceLine.codePart, String.toList_ofList, segments?_trimEnd]

theorem ofLine_eq_parts (line : Nat) (openBlock : Option Nat) (raw : List Char) :
    (LineParts.ofLine line openBlock raw).code =
        ((ScanState.ofOpenBlock openBlock).parts line raw).code ∧
      (LineParts.ofLine line openBlock raw).openBlock =
        ((ScanState.ofOpenBlock openBlock).parts line raw).openBlock := by
  cases openBlock <;> exact ⟨rfl, rfl⟩

theorem inWord_ofOpenBlock (openBlock : Option Nat) : (ScanState.ofOpenBlock openBlock).InWord := by
  cases openBlock with
  | none => exact fun c hc => nomatch hc
  | some => trivial

theorem codeTokens?_ofLine (line : Nat) (openBlock : Option Nat) (raw : List Char) :
    codeTokens? (SourceLine.ofParts (LineParts.ofLine line openBlock raw)).codePart line =
      if (scanLine line (.ofOpenBlock openBlock) raw).2.inString then none
      else some (scanLine line (.ofOpenBlock openBlock) raw).1 := by
  rw [← (agrees_scanLine line _ raw (inWord_ofOpenBlock openBlock)).tokens, codeTokens?,
    segments?_codePart, (ofLine_eq_parts line openBlock raw).1]
  cases openBlock <;> rfl

theorem withoutComments_append (first second : List Token) :
    withoutComments (first ++ second) = withoutComments first ++ withoutComments second :=
  List.filter_append first second

theorem withoutComments_comments (line : Nat) (texts : List String) :
    withoutComments (texts.map fun text => ⟨.comment text, line⟩) = [] := by
  apply List.filter_eq_nil_iff.2
  intro t ht
  obtain ⟨text, _, rfl⟩ := List.mem_map.1 ht
  exact Bool.false_ne_true

theorem withoutComments_codeTokens? (h : codeTokens? code line = some tokens) :
    withoutComments tokens = tokens := by
  obtain ⟨segments, _, rfl⟩ := Option.map_eq_some_iff.1 h
  exact withoutComments_segmentTokens line segments

theorem tokens_ofLine (line : Nat) (openBlock : Option Nat) (raw : List Char) :
    ((SourceLine.ofParts (LineParts.ofLine line openBlock raw)).tokens line).map withoutComments =
      if (scanLine line (.ofOpenBlock openBlock) raw).2.inString then
        .error (.unterminatedString line)
      else .ok (scanLine line (.ofOpenBlock openBlock) raw).1 := by
  have hc := codeTokens?_ofLine line openBlock raw
  rw [SourceLine.tokens]
  split at hc
  · next hs =>
    rw [hc, if_pos hs]
    rfl
  · next hs =>
    rw [hc, if_neg hs]
    simp only [Except.map, withoutComments_append, withoutComments_comments, List.append_nil,
      withoutComments_codeTokens? hc]

theorem tokensFrom_cons (line : Nat) (record : SourceLine) (records : List SourceLine) :
    (tokensFrom line (record :: records)).map withoutComments =
      match (record.tokens line).map withoutComments with
      | .error e => .error e
      | .ok tokens => ((tokensFrom (line + 1) records).map withoutComments).map (tokens ++ ·) := by
  rw [tokensFrom]
  cases record.tokens line with
  | error e => rfl
  | ok tokens =>
    cases tokensFrom (line + 1) records with
    | error e => rfl
    | ok more => simp only [Except.map, withoutComments_append]

theorem ofLines_eq_scanLines (line : Nat) (openBlock : Option Nat) (lines : List (List Char)) :
    (SourceLine.ofLines line openBlock lines).2 = (scanLines line openBlock lines).openBlock ∧
      (tokensFrom line (SourceLine.ofLines line openBlock lines).1).map withoutComments =
        match (scanLines line openBlock lines).openString with
        | some opened => .error (.unterminatedString opened)
        | none => .ok (scanLines line openBlock lines).tokens := by
  induction lines generalizing line openBlock with
  | nil => exact ⟨rfl, rfl⟩
  | cons raw lines ih =>
    have ho : (LineParts.ofLine line openBlock raw).openBlock =
        (scanLine line (.ofOpenBlock openBlock) raw).2.openBlock := by
      rw [(ofLine_eq_parts line openBlock raw).2]
      exact (agrees_scanLine line _ raw (inWord_ofOpenBlock openBlock)).openBlock
    obtain ⟨hb, ht⟩ := ih (line + 1) (scanLine line (.ofOpenBlock openBlock) raw).2.openBlock
    simp only [SourceLine.ofLines, ho, scanLines, tokensFrom_cons, tokens_ofLine, hb, ht]
    refine ⟨trivial, ?_⟩
    by_cases hs : (scanLine line (.ofOpenBlock openBlock) raw).2.inString
    · simp only [if_pos hs]
    · simp only [if_neg hs]
      cases (scanLines (line + 1) _ lines).openString <;> rfl

theorem tokenize_eq_outcome (text : String) :
    ((sourceLines text).bind tokenize).map withoutComments = (scan text).outcome := by
  obtain ⟨hb, ht⟩ := ofLines_eq_scanLines 1 none (Text.lines text.toList)
  rw [sourceLines, Scan.outcome, scan, ← hb]
  generalize SourceLine.ofLines 1 none (Text.lines text.toList) = found at ht ⊢
  obtain ⟨records, _ | opened⟩ := found
  · refine ht.trans ?_
    cases (scanLines 1 none (Text.lines text.toList)).openString <;> rfl
  · rfl

/-- Taking lines apart and then cutting their code into tokens is scanning a text once: the errors
are the block comment that is open at the end, or else the first line left inside a string
literal, and otherwise the tokens that are no comments are those of the scanner. -/
theorem lexer_agrees_with_scanner (text : String) :
    let result := (sourceLines text).bind tokenize
    (∀ opened, result = .error (.unterminatedComment opened) ↔
      (scan text).openBlock = some opened) ∧
    (∀ line, result = .error (.unterminatedString line) ↔
      (scan text).openBlock = none ∧ (scan text).openString = some line) ∧
    ∀ tokens, result.map withoutComments = .ok tokens ↔
      (scan text).openBlock = none ∧ (scan text).openString = none ∧
        (scan text).tokens = tokens := by
  intro result
  have h : result.map withoutComments = (scan text).outcome := tokenize_eq_outcome text
  have he (e : LexicalError) : result = .error e ↔ (scan text).outcome = .error e := by
    rw [← h]
    cases result <;> simp [Except.map]
  simp only [he, h, Scan.outcome]
  cases (scan text).openBlock <;> cases (scan text).openString <;> simp

end Jack
