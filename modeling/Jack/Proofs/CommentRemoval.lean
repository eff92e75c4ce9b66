import Jack.Proofs.CommentConservation

namespace Jack

/-- What is left of the lines of some records without their comments. -/
def uncommented (records : List SourceLine) : String :=
  String.join (records.map fun record => record.codePart ++ "\n")

def SourceLine.codeOnly (record : SourceLine) : SourceLine := .code record.codePart

@[simp] theorem SourceLine.codePart_codeOnly (record : SourceLine) :
    record.codeOnly.codePart = record.codePart := rfl

theorem Uncut.of_cons {mark : List Char → List Char → Prop} (hc : ¬ mark [] (c :: cs))
    (h : Uncut (fun before after => mark (c :: before) after) cs) : Uncut mark (c :: cs) := by
  intro before after he
  cases before with
  | nil =>
    rw [List.nil_append] at he
    rwa [he]
  | cons d before =>
    cases he
    exact h before after rfl

theorem Uncut.of_append (h : Uncut OpensComment (front ++ rest)) : Uncut OpensComment front := by
  rintro before after rfl ⟨hq, ho⟩
  have hp : after <+: after ++ rest := List.prefix_append after rest
  exact h before (after ++ rest) (List.append_assoc ..).symm
    ⟨hq, ho.imp (fun h => h.trans hp) fun h => h.trans hp⟩

section Code

variable {line : Nat}

theorem head?_splitCode (h : (splitCode line inString cs).code.head? = some c) (hc : c ≠ ' ') :
    cs.head? = some c := by
  cases cs with
  | nil =>
    rw [splitCode] at h
    cases h
  | cons d cs =>
    by_cases ho : inString = false ∧ (['/', '/'] <+: d :: cs ∨ ['/', '*'] <+: d :: cs)
    · obtain ⟨rfl, ⟨rest, he⟩ | ⟨rest, he⟩⟩ := ho
      · rw [← he] at h
        cases h
      · rw [← he] at h
        exact absurd (Option.some.inj h).symm hc
    · rw [splitCode_cons line inString cs fun hs hp => ho ⟨hs, hp⟩] at h
      exact h

theorem not_opensComment_cons (hs : quoteOpen passed = inString)
    (hl : ∀ rest, inString = false → c = '/' → cs = '/' :: rest → False)
    (hb : ∀ rest, inString = false → c = '/' → cs = '*' :: rest → False) :
    ¬ OpensComment passed (c :: (splitCode line inString' cs).code) := by
  have hhead (d : Char) (hd : d ≠ ' ') (hp : ['/', d] <+: c :: (splitCode line inString' cs).code) :
      c = '/' ∧ ∃ rest, cs = d :: rest := by
    obtain ⟨hc, rest, hr⟩ := List.cons_prefix_cons.1 hp
    have hr' : (splitCode line inString' cs).code.head? = some d := hr ▸ rfl
    exact ⟨hc.symm, List.head?_eq_some_iff.1 (head?_splitCode hr' hd)⟩
  rintro ⟨hq, ho | ho⟩
  · obtain ⟨hc, rest, he⟩ := hhead '/' (by decide) ho
    exact hl rest (hs ▸ hq) hc he
  · obtain ⟨hc, rest, he⟩ := hhead '*' (by decide) ho
    exact hb rest (hs ▸ hq) hc he

/-- No comment opens in the code that is left of a line: the blank in the place of a block comment
keeps the characters around it apart, and leaves the literals as they are. -/
theorem uncut_split (line : Nat) :
    (∀ inString cs passed, quoteOpen passed = inString →
      Uncut (fun before after => OpensComment (passed ++ before) after)
        (splitCode line inString cs).code) ∧
    ∀ opened cs passed, quoteOpen passed = false →
      Uncut (fun before after => OpensComment (passed ++ before) after)
        (splitBlock line opened cs).2.code := by
  have hnil (passed : List Char) :
      Uncut (fun before after => OpensComment (passed ++ before) after) [] := by
    intro before after he ho
    obtain ⟨rfl, rfl⟩ := List.append_eq_nil_iff.1 he
    simp [OpensComment] at ho
  have hcons {passed : List Char} {c : Char} {cs : List Char}
      (hc : ¬ OpensComment passed (c :: cs))
      (h : Uncut (fun before after => OpensComment (passed ++ [c] ++ before) after) cs) :
      Uncut (fun before after => OpensComment (passed ++ before) after) (c :: cs) := by
    refine .of_cons ?_ ?_
    · rwa [List.append_nil]
    · simpa using h
  apply splitCode.mutual_induct line
  · intro inString passed _
    rw [splitCode]
    exact hnil passed
  · intro rest passed _
    exact hnil passed
  · intro rest _ _ _ ih passed hs
    refine hcons ?_ (ih _ ?_)
    · simp [OpensComment]
    · rw [quoteOpen_concat]
      exact hs
  · intro inString c rest hl hb ih passed hs
    rw [splitCode.eq_4 _ _ _ _ hl hb]
    refine hcons (not_opensComment_cons hs hl hb) (ih _ ?_)
    rw [quoteOpen_concat, hs]
  · intro opened passed _
    exact hnil passed
  · intro opened rest ih passed hs
    exact ih passed hs
  · intro opened c rest hc _ _ _ ih passed hs
    rw [splitBlock.eq_3 _ _ _ _ hc]
    exact ih passed hs

theorem mem_split (line : Nat) :
    (∀ inString cs, ∀ c ∈ (splitCode line inString cs).code, c = ' ' ∨ c ∈ cs) ∧
    ∀ opened cs, ∀ c ∈ (splitBlock line opened cs).2.code, c = ' ' ∨ c ∈ cs := by
  apply splitCode.mutual_induct line
  · intro inString c hc
    rw [splitCode] at hc
    cases hc
  · intro rest c hc
    cases hc
  · intro rest _ _ _ ih c hc
    obtain hc | hc := List.mem_cons.1 hc
    · exact .inl hc
    · exact (ih c hc).imp_right fun hm => List.mem_cons_of_mem _ (List.mem_cons_of_mem _ hm)
  · intro inString d rest hl hb ih c hc
    rw [splitCode.eq_4 _ _ _ _ hl hb] at hc
    obtain rfl | hc := List.mem_cons.1 hc
    · exact .inr (List.mem_cons_self ..)
    · exact (ih c hc).imp_right (List.mem_cons_of_mem d)
  · intro opened c hc
    cases hc
  · intro opened rest ih c hc
    exact (ih c hc).imp_right fun hm => List.mem_cons_of_mem _ (List.mem_cons_of_mem _ hm)
  · intro opened d rest hd _ _ _ ih c hc
    rw [splitBlock.eq_3 _ _ _ _ hd] at hc
    exact (ih c hc).imp_right (List.mem_cons_of_mem d)

end Code

/-- Code as a record keeps it: no comment opens in it, it is on one line, and has no blank at its
end. -/
structure BareCode (cs : List Char) : Prop where
  uncut : Uncut OpensComment cs
  oneLine : '\n' ∉ cs
  trimmed : Text.trimEnd cs = cs

theorem LineParts.code_ofLine (line : Nat) (openBlock : Option Nat) (hr : '\n' ∉ raw) :
    Uncut OpensComment (ofLine line openBlock raw).code ∧
      '\n' ∉ (ofLine line openBlock raw).code := by
  have hm {cs : List Char} (h : ∀ c ∈ cs, c = ' ' ∨ c ∈ raw) : '\n' ∉ cs :=
    fun hc => (h _ hc).elim (by decide) hr
  cases openBlock with
  | none => exact ⟨(uncut_split line).1 false raw [] rfl, hm ((mem_split line).1 false raw)⟩
  | some opened =>
    exact ⟨(uncut_split line).2 opened raw [] rfl, hm ((mem_split line).2 opened raw)⟩

theorem Text.trimEnd_trimEnd (cs : List Char) : trimEnd (trimEnd cs) = trimEnd cs := by
  obtain h | h := trimEnd_cases cs
  · rw [h, trimEnd_nil]
  · exact h.trimEnd_eq

theorem SourceLine.codePart_ofParts (parts : LineParts) :
    (ofParts parts).codePart.toList = Text.trimEnd parts.code := by
  rw [ofParts]
  split
  · exact String.toList_ofList
  split
  · next hb =>
    have hd : parts.code.reverse.dropWhile Text.isBlank = [] :=
      List.dropWhile_eq_nil_iff.2 fun c hc => List.all_eq_true.1 hb c (List.mem_reverse.1 hc)
    rw [Text.trimEnd, hd]
    rfl
  · exact String.toList_ofList

theorem SourceLine.bareCode (line : Nat) (openBlock : Option Nat) (hr : '\n' ∉ raw) :
    BareCode (ofParts (LineParts.ofLine line openBlock raw)).codePart.toList := by
  obtain ⟨hcut, hline⟩ := LineParts.code_ofLine line openBlock hr
  obtain ⟨blanks, _, he⟩ := Text.trimEnd_append_blanks (LineParts.ofLine line openBlock raw).code
  rw [codePart_ofParts]
  rw [← he] at hcut hline
  exact ⟨hcut.of_append, fun hm => hline (List.mem_append_left _ hm), Text.trimEnd_trimEnd _⟩

theorem SourceLine.bareCode_ofLines (line : Nat) (openBlock : Option Nat)
    (h : ∀ raw ∈ raws, '\n' ∉ raw) :
    ∀ record ∈ (ofLines line openBlock raws).1, BareCode record.codePart.toList := by
  induction raws generalizing line openBlock with
  | nil => exact fun record hm => nomatch hm
  | cons raw raws ih =>
    obtain ⟨hraw, hraws⟩ := List.forall_mem_cons.1 h
    exact List.forall_mem_cons.2 ⟨bareCode line openBlock hraw, ih (line + 1) _ hraws⟩

namespace BareCode

theorem last_ne (h : BareCode cs) : cs.getLast? ≠ some '\r' := by
  intro hl
  obtain he | ⟨front, c, he, hc⟩ := Text.trimEnd_cases cs
  · rw [← h.trimmed, he] at hl
    cases hl
  · rw [← h.trimmed, he, List.getLast?_concat] at hl
    exact hc (Option.some.inj hl ▸ Text.isBlank_carriageReturn)

theorem ofLine (h : BareCode cs) (line : Nat) : LineParts.ofLine line none cs = ⟨cs, [], none⟩ :=
  splitCode_uncut line [] h.uncut

theorem ofLines {codes : List (List Char)} (h : ∀ cs ∈ codes, BareCode cs) (line : Nat) :
    SourceLine.ofLines line none codes = (codes.map fun cs => .code (String.ofList cs), none) := by
  induction codes generalizing line with
  | nil => rfl
  | cons cs codes ih =>
    obtain ⟨hcs, hcodes⟩ := List.forall_mem_cons.1 h
    have hr : SourceLine.ofParts ⟨cs, [], none⟩ = .code (String.ofList cs) :=
      congrArg (fun code => SourceLine.code (String.ofList code)) hcs.trimmed
    simp only [SourceLine.ofLines, hcs.ofLine, ih hcodes, hr, List.map_cons]

end BareCode

theorem lines_uncommented {records : List SourceLine}
    (h : ∀ record ∈ records, BareCode record.codePart.toList) :
    Text.lines (uncommented records).toList = records.map fun record => record.codePart.toList := by
  induction records with
  | nil => rfl
  | cons record records ih =>
    obtain ⟨hrecord, hrecords⟩ := List.forall_mem_cons.1 h
    have hl : (uncommented (record :: records)).toList =
        record.codePart.toList ++ '\n' :: (uncommented records).toList := by
      simp [uncommented]
    rw [hl, Text.lines_append_lineFeed hrecord.oneLine hrecord.last_ne, ih hrecords, List.map_cons]

theorem sourceLines_uncommented (h : sourceLines text = .ok records) :
    sourceLines (uncommented records) = .ok (records.map SourceLine.codeOnly) := by
  have hbare : ∀ record ∈ records, BareCode record.codePart.toList := by
    have hb := SourceLine.bareCode_ofLines 1 none fun raw (hr : raw ∈ Text.lines text.toList) =>
      Text.not_mem_of_mem_lines hr
    rwa [ofLines_of_sourceLines h] at hb
  have hcodes : ∀ cs ∈ records.map fun record => record.codePart.toList, BareCode cs := by
    simpa using hbare
  rw [sourceLines, lines_uncommented hbare, BareCode.ofLines hcodes, List.map_map]
  simp only [Function.comp_def, String.ofList_toList]
  rfl

theorem SourceLine.tokens_codeOnly (record : SourceLine) (line : Nat) :
    record.codeOnly.tokens line = (record.tokens line).map withoutComments := by
  rw [tokens, tokens, codePart_codeOnly]
  cases hc : codeTokens? record.codePart line with
  | none => rfl
  | some tokens =>
    simp only [codeOnly, commentPart?, Option.toList_none, List.map_nil, Except.map,
      withoutComments_append, withoutComments_comments, List.append_nil,
      withoutComments_codeTokens? hc]

theorem tokensFrom_codeOnly (line : Nat) (records : List SourceLine) :
    tokensFrom line (records.map SourceLine.codeOnly) =
      (tokensFrom line records).map withoutComments := by
  induction records generalizing line with
  | nil => rfl
  | cons record records ih =>
    rw [tokensFrom_cons, List.map_cons, tokensFrom, SourceLine.tokens_codeOnly, ih]
    cases (record.tokens line).map withoutComments with
    | error e => rfl
    | ok tokens => cases (tokensFrom (line + 1) records).map withoutComments <;> rfl

theorem Options.withoutComments_select (options : Options) (ts : List Token) :
    withoutComments (options.select ts) = withoutComments ts ∧
      options.select (withoutComments ts) = withoutComments ts := by
  have hw : withoutComments (withoutComments ts) = withoutComments ts := by
    simp [withoutComments]
  rw [select, select]
  split
  · exact ⟨rfl, rfl⟩
  · exact ⟨hw, hw⟩

/-- Removing comments is idempotent: the text that is left of the lines of a text without their
comments has the code of each record for its record, and is left as it is when comments are removed
once more. It has the tokens of the text that are no comments, on the same lines, or the same error
when a string literal is left open. -/
theorem comment_removal_idempotent (h : sourceLines text = .ok records) :
    sourceLines (uncommented records) =
        .ok (records.map fun record => .code record.codePart) ∧
      uncommented (records.map fun record => .code record.codePart) = uncommented records ∧
      ∀ options kept, (tokenizeText kept (uncommented records)).result =
        (tokenizeText options text).result.map withoutComments := by
  have hs := sourceLines_uncommented h
  refine ⟨hs, ?_, fun options kept => ?_⟩
  · rw [uncommented, uncommented, List.map_map]
    rfl
  · rw [tokenizeText_result, tokenizeText_result, hs, h]
    change (tokensFrom 1 (records.map SourceLine.codeOnly)).map kept.select =
      ((tokensFrom 1 records).map options.select).map withoutComments
    rw [tokensFrom_codeOnly]
    cases tokensFrom 1 records with
    | error e => rfl
    | ok tokens =>
      simp only [Except.map, (kept.withoutComments_select tokens).2,
        (options.withoutComments_select tokens).1]

/-- Three lines with slashes around comments, and comment openers in a string literal. -/
def slashedText : String := "a /**// b // c\n/* d\r\n \" */\"/*//\"/ /**/"

def slashedRecords : List SourceLine :=
  [.codeWithComment "a  / b" "/**/ // c", .comment "/* d",
    .codeWithComment "\"/*//\"/" "\" */ /**/"]

def slashedTokens : List Token :=
  [⟨.identifier "a", 1⟩, ⟨.symbol '/', 1⟩, ⟨.identifier "b", 1⟩, ⟨.string "/*//", 3⟩,
    ⟨.symbol '/', 3⟩]

theorem slashedText_uncommented :
    sourceLines slashedText = .ok slashedRecords ∧
      uncommented slashedRecords = "a  / b\n\n\"/*//\"/\n" ∧
      sourceLines "a  / b\n\n\"/*//\"/\n" =
        .ok [.code "a  / b", .code "", .code "\"/*//\"/"] ∧
      (tokenizeText ⟨true⟩ "a  / b\n\n\"/*//\"/\n").result = .ok slashedTokens := by
  have h : sourceLines slashedText = .ok slashedRecords := rfl
  have hu : uncommented slashedRecords = "a  / b\n\n\"/*//\"/\n" := rfl
  have ht : (tokenizeText ⟨false⟩ slashedText).result = .ok slashedTokens :=
    (tokenizeText_eq_outcome slashedText).trans rfl
  obtain ⟨hrecords, -, htokens⟩ := comment_removal_idempotent h
  have hagain := htokens ⟨false⟩ ⟨true⟩
  rw [ht] at hagain
  rw [hu] at hrecords hagain
  exact ⟨h, hu, hrecords, hagain⟩

end Jack
