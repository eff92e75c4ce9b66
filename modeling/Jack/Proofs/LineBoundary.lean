import Jack.Proofs.Respelling

namespace Jack

namespace Text

/-- Whether a text ends with a whole line, or has no line at all. -/
def EndsLine (cs : List Char) : Prop := cs = [] ∨ cs.getLast? = some '\n'

theorem EndsLine.of_cons (h : EndsLine (c :: cs)) (hl : c ≠ '\n') :
    EndsLine cs ∧ cs ≠ [] := by
  obtain h | h := h
  · cases h
  cases cs with
  | nil => exact absurd (Option.some.inj h) hl
  | cons d cs => exact ⟨.inr (List.getLast?_cons_cons ▸ h), List.cons_ne_nil d cs⟩

theorem EndsLine.tail (h : EndsLine (c :: cs)) : EndsLine cs := by
  cases cs with
  | nil => exact .inl rfl
  | cons d cs =>
    obtain h | h := h
    · cases h
    · exact .inr (List.getLast?_cons_cons ▸ h)

theorem lines_ne_nil (h : cs ≠ []) : lines cs ≠ [] := by
  fun_cases lines cs with
  | case1 => exact absurd rfl h
  | case2 | case3 | case4 | case5 => exact List.cons_ne_nil _ _

theorem lines_append (h : EndsLine cs) (rest : List Char) :
    lines (cs ++ rest) = lines cs ++ lines rest := by
  fun_induction lines cs with
  | case1 => rfl
  | case2 cs ih => exact congrArg _ (ih h.tail)
  | case3 cs ih => exact congrArg _ (ih h.tail.tail)
  | case4 c cs hl _ hn _ => exact absurd hn (lines_ne_nil (h.of_cons hl).2)
  | case5 c cs hl hr line more hn ih =>
    obtain ⟨he, hc⟩ := h.of_cons hl
    have hh : c = '\r' → (cs ++ rest).head? ≠ some '\n' := by
      intro hcr hh
      cases cs with
      | nil => exact hc rfl
      | cons d cs =>
        cases hh
        exact hr cs hcr rfl
    rw [List.cons_append, lines_cons hl hh, ih he, hn]
    rfl

theorem length_lines (h : EndsLine cs) : (lines cs).length = cs.count '\n' := by
  fun_induction lines cs with
  | case1 => rfl
  | case2 cs ih => rw [List.length_cons, ih h.tail, List.count_cons_self]
  | case3 cs ih =>
    rw [List.length_cons, ih h.tail.tail, List.count_cons_of_ne (by decide), List.count_cons_self]
  | case4 c cs hl _ hn _ => exact absurd hn (lines_ne_nil (h.of_cons hl).2)
  | case5 c cs hl _ line more hn ih =>
    rw [List.count_cons_of_ne hl, ← ih (h.of_cons hl).1, hn]
    rfl

end Text

def LineParts.later (count : Nat) (parts : LineParts) : LineParts :=
  { parts with openBlock := parts.openBlock.map (· + count) }

/-- The same token `count` lines further down. -/
def Token.later (count : Nat) (t : Token) : Token := { t with line := t.line + count }

def LexicalError.later (count : Nat) : LexicalError → LexicalError
  | .unterminatedString line => .unterminatedString (line + count)
  | .unterminatedComment line => .unterminatedComment (line + count)

def outcomeLater (count : Nat) :
    Except LexicalError (List Token) → Except LexicalError (List Token)
  | .ok tokens => .ok (tokens.map (Token.later count))
  | .error e => .error (e.later count)

section Later

variable (line count : Nat)

/-- Taking a line apart looks at its number only to say where a block comment was opened. -/
theorem split_later :
    (∀ inString cs,
      splitCode (line + count) inString cs = (splitCode line inString cs).later count) ∧
    ∀ opened cs,
      splitBlock (line + count) (opened + count) cs =
        ((splitBlock line opened cs).1, (splitBlock line opened cs).2.later count) := by
  apply splitCode.mutual_induct line
  · intro inString
    rw [splitCode, splitCode]
    rfl
  · intro rest
    rfl
  · intro rest piece parts _ ih
    rw [splitCode, ih, splitCode]
    rfl
  · intro inString c rest hl hb ih
    rw [splitCode.eq_4 _ _ _ _ hl hb, splitCode.eq_4 _ _ _ _ hl hb, ih]
    rfl
  · intro opened
    rfl
  · intro opened rest ih
    rw [splitBlock, ih]
    rfl
  · intro opened c rest hc piece parts _ ih
    rw [splitBlock.eq_3 _ _ _ _ hc, splitBlock.eq_3 _ _ _ _ hc, ih]

theorem LineParts.ofLine_later (openBlock : Option Nat) (raw : List Char) :
    ofLine (line + count) (openBlock.map (· + count)) raw =
      (ofLine line openBlock raw).later count := by
  obtain ⟨hcode, hblock⟩ := split_later line count
  cases openBlock with
  | none => exact hcode false raw
  | some opened =>
    simp only [Option.map_some, ofLine, hblock]
    rfl

theorem SourceLine.ofLines_later (openBlock : Option Nat) (raws : List (List Char)) :
    ofLines (line + count) (openBlock.map (· + count)) raws =
      ((ofLines line openBlock raws).1,
        (ofLines line openBlock raws).2.map (· + count)) := by
  induction raws generalizing line openBlock with
  | nil => rfl
  | cons raw raws ih =>
    have hl : line + count + 1 = line + 1 + count := Nat.add_right_comm line count 1
    simp only [ofLines, LineParts.ofLine_later, LineParts.later, hl, ih]
    rfl

theorem codeTokens?_later (code : String) :
    codeTokens? code (line + count) =
      (codeTokens? code line).map (List.map (Token.later count)) := by
  rw [codeTokens?, codeTokens?, Option.map_map]
  congr 1
  funext segments
  simp only [Function.comp_apply, List.map_map]
  rfl

theorem SourceLine.tokens_later (record : SourceLine) :
    record.tokens (line + count) = outcomeLater count (record.tokens line) := by
  rw [tokens, codeTokens?_later, tokens]
  cases codeTokens? record.codePart line with
  | none => rfl
  | some tokens =>
    simp only [Option.map_some, outcomeLater, List.map_append, List.map_map]
    rfl

theorem tokensFrom_later (records : List SourceLine) :
    tokensFrom (line + count) records = outcomeLater count (tokensFrom line records) := by
  induction records generalizing line with
  | nil => rfl
  | cons record records ih =>
    have hl : line + count + 1 = line + 1 + count := Nat.add_right_comm line count 1
    rw [tokensFrom, SourceLine.tokens_later, hl, ih, tokensFrom]
    cases record.tokens line with
    | error e => rfl
    | ok tokens =>
      cases tokensFrom (line + 1) records with
      | error e => rfl
      | ok more => simp only [outcomeLater, List.map_append]

end Later

section Append

theorem SourceLine.ofLines_append (line : Nat) (openBlock : Option Nat)
    (first second : List (List Char)) :
    ofLines line openBlock (first ++ second) =
      let (records, stillOpen) := ofLines line openBlock first
      let (more, last) := ofLines (line + first.length) stillOpen second
      (records ++ more, last) := by
  induction first generalizing line openBlock with
  | nil => rfl
  | cons raw first ih =>
    have hl : line + 1 + first.length = line + (raw :: first).length := by
      rw [List.length_cons, Nat.add_assoc, Nat.add_comm 1]
    simp only [List.cons_append, ofLines, ih, hl]

theorem SourceLine.length_ofLines (line : Nat) (openBlock : Option Nat) (raws : List (List Char)) :
    (ofLines line openBlock raws).1.length = raws.length := by
  induction raws generalizing line openBlock with
  | nil => rfl
  | cons raw raws ih => exact congrArg Nat.succ (ih (line + 1) _)

theorem ofLines_of_sourceLines (h : sourceLines text = .ok records) :
    SourceLine.ofLines 1 none (Text.lines text.toList) = (records, none) := by
  rw [sourceLines] at h
  split at h
  · next hl =>
    cases h
    exact hl
  · cases h

theorem length_sourceLines (h : sourceLines text = .ok records) :
    records.length = (Text.lines text.toList).length := by
  rw [← SourceLine.length_ofLines 1 none, ofLines_of_sourceLines h]

theorem tokensFrom_append (line : Nat) (first second : List SourceLine) :
    tokensFrom line (first ++ second) =
      match tokensFrom line first with
      | .error e => .error e
      | .ok tokens => (tokensFrom (line + first.length) second).map (tokens ++ ·) := by
  induction first generalizing line with
  | nil =>
    simp only [List.nil_append, tokensFrom, List.length_nil, Nat.add_zero]
    cases tokensFrom line second <;> rfl
  | cons record first ih =>
    have hl : line + 1 + first.length = line + (record :: first).length := by
      rw [List.length_cons, Nat.add_assoc, Nat.add_comm 1]
    simp only [List.cons_append, tokensFrom, ih, hl]
    cases record.tokens line with
    | error e => rfl
    | ok tokens =>
      cases tokensFrom (line + 1) first with
      | error e => rfl
      | ok more =>
        cases tokensFrom (line + (record :: first).length) second with
        | error e => rfl
        | ok rest => simp only [Except.map, List.append_assoc]

end Append

/-- The tokens of consecutive lines, the first of which has number `line` and may start inside a
block comment, or what is wrong with these lines. -/
def tokenizeFrom (line : Nat) (openBlock : Option Nat) (raws : List (List Char)) :
    Except LexicalError (List Token) :=
  match SourceLine.ofLines line openBlock raws with
  | (records, none) => tokensFrom line records
  | (_, some opened) => .error (.unterminatedComment opened)

theorem bind_tokenize (text : String) :
    (sourceLines text).bind tokenize = tokenizeFrom 1 none (Text.lines text.toList) := by
  rw [sourceLines, tokenizeFrom]
  generalize SourceLine.ofLines 1 none (Text.lines text.toList) = found
  obtain ⟨records, _ | opened⟩ := found <;> rfl

theorem tokenizeFrom_later (line count : Nat) (openBlock : Option Nat) (raws : List (List Char)) :
    tokenizeFrom (line + count) (openBlock.map (· + count)) raws =
      outcomeLater count (tokenizeFrom line openBlock raws) := by
  rw [tokenizeFrom, SourceLine.ofLines_later, tokenizeFrom]
  generalize SourceLine.ofLines line openBlock raws = found
  obtain ⟨records, _ | opened⟩ := found
  · exact tokensFrom_later line count records
  · rfl

/-- Lines that close all their block comments do not change how the lines after them are read. -/
theorem tokenizeFrom_append (h : tokenizeFrom line openBlock first = .ok tokens)
    (second : List (List Char)) :
    tokenizeFrom line openBlock (first ++ second) =
      (tokenizeFrom (line + first.length) none second).map (tokens ++ ·) := by
  have hn := SourceLine.length_ofLines line openBlock first
  rw [tokenizeFrom] at h
  rw [tokenizeFrom, SourceLine.ofLines_append, tokenizeFrom]
  generalize SourceLine.ofLines line openBlock first = found at h hn ⊢
  obtain ⟨records, _ | opened⟩ := found
  · dsimp only at h hn ⊢
    generalize SourceLine.ofLines (line + first.length) none second = found
    obtain ⟨more, _ | opened⟩ := found
    · dsimp only
      rw [tokensFrom_append, h, hn]
    · rfl
  · cases h

theorem Options.select_append (options : Options) (first second : List Token) :
    options.select (first ++ second) = options.select first ++ options.select second := by
  rw [select, select, select]
  split
  · rfl
  · exact List.filter_append first second

theorem Options.select_later (options : Options) (count : Nat) (ts : List Token) :
    options.select (ts.map (Token.later count)) = (options.select ts).map (Token.later count) := by
  rw [select, select]
  split
  · rfl
  · exact List.filter_map

theorem tokenizeText_eq_ok (h : (tokenizeText options text).result = .ok ts) :
    ∃ records tokens, sourceLines text = .ok records ∧ tokenize records = .ok tokens ∧
      options.select tokens = ts := by
  rw [tokenizeText_result] at h
  cases hs : sourceLines text with
  | error e =>
    rw [hs] at h
    cases h
  | ok records =>
    rw [hs] at h
    change (tokenize records).map options.select = .ok ts at h
    cases ht : tokenize records with
    | error e =>
      rw [ht] at h
      cases h
    | ok tokens =>
      rw [ht] at h
      cases h
      exact ⟨records, tokens, rfl, ht, rfl⟩

theorem tokenizeText_append (hf : Text.EndsLine first.toList)
    (h : (tokenizeText options first).result = .ok tokens) (second : String) :
    (tokenizeText options (first ++ second)).result =
      (outcomeLater (Text.lines first.toList).length (tokenizeText options second).result).map
        (tokens ++ ·) := by
  obtain ⟨records, found, hs, ht, rfl⟩ := tokenizeText_eq_ok h
  have hfirst : tokenizeFrom 1 none (Text.lines first.toList) = .ok found := by
    rw [← bind_tokenize, hs]
    exact ht
  have hsecond := tokenizeFrom_later 1 (Text.lines first.toList).length none
    (Text.lines second.toList)
  rw [Option.map_none] at hsecond
  rw [tokenizeText_result, bind_tokenize, tokenizeText_result, bind_tokenize,
    String.toList_append, Text.lines_append hf, tokenizeFrom_append hfirst, hsecond]
  cases tokenizeFrom 1 none (Text.lines second.toList) with
  | error e => rfl
  | ok more =>
    simp only [outcomeLater, Except.map, Options.select_append, Options.select_later]

section Order

theorem SourceLine.line_of_tokens {record : SourceLine} (h : record.tokens line = .ok ts) :
    ∀ t ∈ ts, t.line = line := by
  rw [tokens] at h
  split at h
  · cases h
  · next tokens hc =>
    cases h
    obtain ⟨segments, _, rfl⟩ := Option.map_eq_some_iff.1 hc
    intro t ht
    obtain ht | ht := List.mem_append.1 ht
    · obtain ⟨segment, _, rfl⟩ := List.mem_map.1 ht
      rfl
    · obtain ⟨text, _, rfl⟩ := List.mem_map.1 ht
      rfl

theorem tokensFrom_lines (h : tokensFrom line records = .ok ts) :
    ts.Pairwise (fun t u => t.line ≤ u.line) ∧
      ∀ t ∈ ts, line ≤ t.line ∧ t.line < line + records.length := by
  induction records generalizing line ts with
  | nil =>
    cases h
    exact ⟨.nil, fun t ht => nomatch ht⟩
  | cons record records ih =>
    rw [tokensFrom] at h
    split at h
    · cases h
    next tokens hr =>
    split at h
    · cases h
    next more hm =>
    cases h
    have hline := SourceLine.line_of_tokens hr
    obtain ⟨hsorted, hlater⟩ := ih hm
    rw [List.length_cons]
    constructor
    · refine List.pairwise_append.2 ⟨?_, hsorted, fun t ht u hu => ?_⟩
      · exact List.pairwise_of_forall_mem_list fun t ht u hu => by rw [hline t ht, hline u hu]
      · rw [hline t ht]
        exact Nat.le_of_succ_le (hlater u hu).1
    · intro t ht
      obtain ht | ht := List.mem_append.1 ht
      · rw [hline t ht]
        omega
      · have := hlater t ht
        omega

theorem tokenizeText_lines (h : (tokenizeText options text).result = .ok ts) :
    ts.Pairwise (fun t u => t.line ≤ u.line) ∧
      ∀ t ∈ ts, 1 ≤ t.line ∧ t.line ≤ (Text.lines text.toList).length := by
  obtain ⟨records, tokens, hs, ht, rfl⟩ := tokenizeText_eq_ok h
  obtain ⟨hsorted, hlines⟩ := tokensFrom_lines ht
  have hsub : (options.select tokens).Sublist tokens := by
    rw [Options.select]
    split
    · exact .refl _
    · exact List.filter_sublist
  refine ⟨hsorted.sublist hsub, fun t hm => ?_⟩
  have := hlines t (hsub.subset hm)
  rw [← length_sourceLines hs]
  omega

end Order

/-- Texts are tokenized line by line: what follows a line end has its own tokens, or its own error,
further down by the lines before it, when these have tokens. There is a record for each line, and
the tokens stand on these lines in their order. -/
theorem tokenizing_composes :
    (∀ options first second tokens,
      Text.EndsLine first.toList → (tokenizeText options first).result = .ok tokens →
      let whole := (tokenizeText options (first ++ second)).result
      let count := (Text.lines first.toList).length
      (∀ more, (tokenizeText options second).result = .ok more →
        whole = .ok (tokens ++ more.map (Token.later count))) ∧
      ∀ e, (tokenizeText options second).result = .error e → whole = .error (e.later count)) ∧
    (∀ text records, sourceLines text = .ok records →
      records.length = (Text.lines text.toList).length) ∧
    ∀ options text tokens, (tokenizeText options text).result = .ok tokens →
      tokens.Pairwise (fun t u => t.line ≤ u.line) ∧
        ∀ t ∈ tokens, 1 ≤ t.line ∧ t.line ≤ (Text.lines text.toList).length := by
  refine ⟨fun options first second tokens hf h => ?_, fun text records => length_sourceLines,
    fun options text tokens => tokenizeText_lines⟩
  have ha := tokenizeText_append hf h second
  refine ⟨fun more hm => ?_, fun e he => ?_⟩
  · rw [ha, hm]
    rfl
  · rw [ha, he]
    rfl

def commentedLines : String := "/* a \"\n // */ class\r\n"

def commentedRecords : List SourceLine := [.comment "/* a \"", .codeWithComment " class" "// */"]

def commentedTokens : List Token := [⟨.keyword .class_, 2⟩]

theorem tokens_after_commentedLines :
    Text.EndsLine commentedLines.toList ∧
      (tokenizeText ⟨false⟩ commentedLines).result = .ok commentedTokens ∧
      (tokenizeText ⟨false⟩ (commentedLines ++ "A\n(")).result =
        .ok (commentedTokens ++ [⟨.identifier "A", 3⟩, ⟨.symbol '(', 4⟩]) ∧
      (tokenizeText ⟨false⟩ (commentedLines ++ "\"\n\"")).result =
        .error (.unterminatedString 3) ∧
      (sourceLines commentedLines = .ok commentedRecords ∧
        commentedRecords.length = (Text.lines commentedLines.toList).length) ∧
      ∀ t ∈ commentedTokens, t.line ≤ (Text.lines commentedLines.toList).length := by
  obtain ⟨hcompose, hrecords, hlines⟩ := tokenizing_composes
  have hf : Text.EndsLine commentedLines.toList := .inr (by decide)
  have h : (tokenizeText ⟨false⟩ commentedLines).result = .ok commentedTokens :=
    (tokenizeText_eq_outcome commentedLines).trans rfl
  have ha : (tokenizeText ⟨false⟩ "A\n(").result =
      .ok [⟨.identifier "A", 1⟩, ⟨.symbol '(', 2⟩] :=
    (tokenizeText_eq_outcome _).trans rfl
  have hq : (tokenizeText ⟨false⟩ "\"\n\"").result = .error (.unterminatedString 1) :=
    (tokenizeText_eq_outcome _).trans rfl
  have hs : sourceLines commentedLines = .ok commentedRecords := rfl
  exact ⟨hf, h, (hcompose _ _ _ _ hf h).1 _ ha, (hcompose _ _ _ _ hf h).2 _ hq,
    ⟨hs, hrecords _ _ hs⟩, fun t ht => ((hlines _ _ _ h).2 t ht).2⟩

end Jack
