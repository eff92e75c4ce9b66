import Jack.Proofs.LexerAgreement

namespace Jack

def Lexeme.spelling : Lexeme → List Char
  | .string body => '"' :: (body.toList ++ ['"'])
  | lexeme => lexeme.text.toList

/-- What a line is cut into: words, other single characters, and string literals. -/
inductive IsSegment : List Char → Prop where
  | word (hn : cs ≠ []) (hw : ∀ c ∈ cs, Text.isWord c) : IsSegment cs
  | single (hq : c ≠ '"') (hb : ¬ Text.isBlank c) (hw : ¬ Text.isWord c) : IsSegment [c]
  | literal (hq : '"' ∉ body) (hl : '\n' ∉ body) : IsSegment (quoted body)

/-- A token whose spelling is a segment, of which the same lexeme is read. -/
structure Token.Readable (t : Token) : Prop where
  segment : IsSegment t.lexeme.spelling
  lexeme : Lexeme.ofSegment (String.ofList t.lexeme.spelling) = t.lexeme

theorem Lexeme.spelling_of_text {lexeme : Lexeme} (h : ∀ body, lexeme ≠ .string body) :
    lexeme.spelling = lexeme.text.toList := by
  cases lexeme with
  | string body => exact absurd rfl (h body)
  | keyword | symbol | identifier | integer | comment => rfl

theorem Lexeme.ofSegment_ne_string {segment : String} (h : segment.toList.head? ≠ some '"')
    (body : String) :
    Lexeme.ofSegment segment ≠ .string body := by
  intro hs
  rw [Lexeme.ofSegment] at hs
  split at hs
  · cases hs
  split at hs
  · cases hs
  split at hs
  · next hq => exact h (by rw [hq]; rfl)
  split at hs <;> cases hs

theorem IsSegment.integer (value : UInt64) : IsSegment (Lexeme.integer value).spelling := by
  apply IsSegment.word
  · change value.toNat.repr.toList ≠ []
    rw [Nat.toList_repr]
    exact Nat.toDigits_ne_nil
  · change ∀ c ∈ value.toNat.repr.toList, Text.isWord c
    rw [Nat.toList_repr]
    exact fun c hc =>
      Text.isWord_of_isDigit (Nat.isDigit_of_mem_toDigits (by decide) (by decide) hc)

theorem IsSegment.readable_of_no_quote (h : IsSegment cs) (hq : cs.head? ≠ some '"') (line : Nat) :
    (Token.mk (Lexeme.ofSegment (String.ofList cs)) line).Readable := by
  have hq' : (String.ofList cs).toList.head? ≠ some '"' := by rwa [String.toList_ofList]
  have hs := Lexeme.spelling_of_text (Lexeme.ofSegment_ne_string hq')
  constructor
  · obtain ht | ⟨value, hv⟩ := Lexeme.text_ofSegment hq'
    · rwa [hs, ht, String.toList_ofList]
    · rw [hv]
      exact .integer value
  · rw [hs, String.ofList_toList, Lexeme.ofSegment_text hq']

theorem IsSegment.readable (h : IsSegment cs) (line : Nat) :
    (Token.mk (Lexeme.ofSegment (String.ofList cs)) line).Readable := by
  cases h with
  | word hn hw =>
    refine readable_of_no_quote (.word hn hw) (fun hq => ?_) line
    exact Text.not_isWord_quote (hw _ (List.mem_of_head? hq))
  | single hq hb hw =>
    refine readable_of_no_quote (.single hq hb hw) (fun hq' => ?_) line
    exact hq (Option.some.inj hq')
  | @literal body hq hl =>
    have hs : (Lexeme.string (String.ofList body)).spelling = quoted body := by
      rw [Lexeme.spelling, String.toList_ofList]
      rfl
    constructor
    · rw [Lexeme.ofSegment_quoted, hs]
      exact .literal hq hl
    · rw [Lexeme.ofSegment_quoted, hs, Lexeme.ofSegment_quoted]

namespace ScanState

/-- The word that is being read has word characters only, and the literal that is being read has no
quotes and is on one line. -/
def Partial : ScanState → Prop
  | .code word => ∀ c ∈ word, Text.isWord c
  | .string body => '"' ∉ body ∧ '\n' ∉ body
  | .block _ => True

theorem partial_code_nil : (ScanState.code []).Partial := fun _ h => nomatch h

theorem partial_string_nil : (ScanState.string []).Partial :=
  ⟨List.not_mem_nil, List.not_mem_nil⟩

end ScanState

def ReadableOn (line : Nat) (ts : List Token) : Prop := ∀ t ∈ ts, t.line = line ∧ t.Readable

theorem ReadableOn.nil (line : Nat) : ReadableOn line [] := by
  intro t ht
  cases ht

theorem ReadableOn.append (h : ReadableOn line ts) (h' : ReadableOn line us) :
    ReadableOn line (ts ++ us) := by
  intro t ht
  obtain ht | ht := List.mem_append.1 ht
  · exact h t ht
  · exact h' t ht

theorem IsSegment.readableOn (h : IsSegment cs) (line : Nat) :
    ReadableOn line [⟨Lexeme.ofSegment (String.ofList cs), line⟩] := by
  intro t ht
  obtain rfl := List.mem_singleton.1 ht
  exact ⟨rfl, h.readable line⟩

theorem readableOn_wordTokens (h : ∀ c ∈ word, Text.isWord c) (line : Nat) :
    ReadableOn line (wordTokens line word) := by
  cases word with
  | nil => exact .nil line
  | cons c word => exact (IsSegment.word (List.cons_ne_nil c word) h).readableOn line

theorem scanLine_readableOn (line : Nat) (state : ScanState) (cs : List Char) (h : state.Partial)
    (hl : '\n' ∉ cs) : ReadableOn line (scanLine line state cs).1 := by
  have hnil := ScanState.partial_code_nil
  fun_induction scanLine line state cs with
  | case1 word => exact readableOn_wordTokens h line
  | case2 word cs tokens last hs ih =>
    rw [hs] at ih
    have hcs := List.not_mem_of_not_mem_cons hl
    exact (readableOn_wordTokens h line).append (ih ScanState.partial_string_nil hcs)
  | case3 word rest => exact readableOn_wordTokens h line
  | case4 word cs tokens last hs ih =>
    rw [hs] at ih
    have hcs := List.not_mem_of_not_mem_cons (List.not_mem_of_not_mem_cons hl)
    exact (readableOn_wordTokens h line).append (ih trivial hcs)
  | case5 word c cs hq _ _ hw ih =>
    have hword : (ScanState.code (word ++ [c])).Partial := by
      simpa [ScanState.Partial, or_imp, forall_and] using ⟨h, hw⟩
    exact ih hword (List.not_mem_of_not_mem_cons hl)
  | case6 word c cs hq _ _ hw single tokens last hs ih =>
    rw [hs] at ih
    have hsingle : ReadableOn line single := by
      by_cases hb : Text.isBlank c
      · simp only [single, if_pos hb]
        exact .nil line
      · simp only [single, if_neg hb]
        exact (IsSegment.single hq hb hw).readableOn line
    have hcs := List.not_mem_of_not_mem_cons hl
    exact ((readableOn_wordTokens h line).append hsingle).append (ih hnil hcs)
  | case7 body => exact .nil line
  | case8 body cs tokens last hs ih =>
    rw [hs] at ih
    have hcs := List.not_mem_of_not_mem_cons hl
    rw [← Lexeme.ofSegment_quoted]
    exact ((IsSegment.literal h.1 h.2).readableOn line).append (ih hnil hcs)
  | case9 body c cs hq ih =>
    rw [List.mem_cons, not_or] at hl
    have hbody : (ScanState.string (body ++ [c])).Partial := by
      simp only [ScanState.Partial, List.mem_append, List.mem_singleton, not_or]
      exact ⟨⟨h.1, fun he => hq he.symm⟩, h.2, hl.1⟩
    exact ih hbody hl.2
  | case10 opened => exact .nil line
  | case11 opened cs ih =>
    exact ih hnil (List.not_mem_of_not_mem_cons (List.not_mem_of_not_mem_cons hl))
  | case12 opened c cs _ ih => exact ih trivial (List.not_mem_of_not_mem_cons hl)

section Reading

variable {line : Nat}

def EndsSegment (rest : List Char) : Prop := ∀ c, rest.head? = some c → c = ' '

theorem scanLine_word (h : ∀ c ∈ cs, Text.isWord c) (word rest : List Char) :
    scanLine line (.code word) (cs ++ rest) = scanLine line (.code (word ++ cs)) rest := by
  induction cs generalizing word with
  | nil => rw [List.nil_append, List.append_nil]
  | cons c cs ih =>
    rw [List.forall_mem_cons] at h
    have hq : c ≠ '"' := ne_quote_of_isWord h.1
    have hs : c ≠ '/' := fun hc => absurd (hc ▸ h.1) (by decide)
    rw [List.cons_append, scanLine, if_pos h.1, ih h.2, List.append_assoc]
    · rfl
    · exact hq
    · exact fun _ hc => absurd hc hs
    · exact fun _ hc => absurd hc hs

theorem scanLine_between (hq : c ≠ '"') (hw : ¬ Text.isWord c) (hs : EndsSegment cs ∨ c ≠ '/')
    (word : List Char) :
    scanLine line (.code word) (c :: cs) =
      (wordTokens line word ++
          (if Text.isBlank c then [] else [⟨Lexeme.ofSegment (String.ofList [c]), line⟩]) ++
          (scanLine line (.code []) cs).1,
        (scanLine line (.code []) cs).2) := by
  have hn (d : Char) (hd : d ≠ ' ') (rest : List Char) (hc : c = '/') : cs ≠ d :: rest := by
    rintro rfl
    obtain hs | hs := hs
    · exact hd (hs d rfl)
    · exact hs hc
  rw [scanLine, if_neg hw]
  · exact hq
  · exact hn '/' (by decide)
  · exact hn '*' (by decide)

theorem scanLine_space (word cs : List Char) :
    scanLine line (.code word) (' ' :: cs) =
      (wordTokens line word ++ (scanLine line (.code []) cs).1,
        (scanLine line (.code []) cs).2) := by
  have hw : ¬ Text.isWord ' ' := Text.not_isWord_of_isBlank Text.isBlank_space
  rw [scanLine_between (by decide) hw (.inr (by decide)), if_pos Text.isBlank_space,
    List.append_nil]

theorem scanLine_code (h : EndsSegment rest) (word : List Char) :
    scanLine line (.code word) rest =
      (wordTokens line word ++ (scanLine line (.code []) rest).1,
        (scanLine line (.code []) rest).2) := by
  cases rest with
  | nil => exact Prod.ext (List.append_nil _).symm rfl
  | cons c rest =>
    obtain rfl := h c rfl
    rw [scanLine_space, scanLine_space]
    rfl

theorem scanLine_body (h : '"' ∉ cs) (body rest : List Char) :
    scanLine line (.string body) (cs ++ '"' :: rest) =
      (⟨.string (String.ofList (body ++ cs)), line⟩ :: (scanLine line (.code []) rest).1,
        (scanLine line (.code []) rest).2) := by
  induction cs generalizing body with
  | nil => rw [List.nil_append, List.append_nil, scanLine]
  | cons c cs ih =>
    rw [List.mem_cons, not_or] at h
    rw [List.cons_append, scanLine, ih h.2, List.append_assoc]
    · rfl
    · exact fun hc => h.1 hc.symm

/-- A segment that ends at a space or at the end of the line is one token. -/
theorem scanLine_segment (h : IsSegment cs) (hr : EndsSegment rest) :
    scanLine line (.code []) (cs ++ rest) =
      (⟨Lexeme.ofSegment (String.ofList cs), line⟩ :: (scanLine line (.code []) rest).1,
        (scanLine line (.code []) rest).2) := by
  cases h with
  | word hn hw =>
    rw [scanLine_word hw, List.nil_append, scanLine_code hr, wordTokens, if_neg (by simpa using hn)]
    rfl
  | single hq hb hw =>
    rw [List.singleton_append, scanLine_between hq hw (.inl hr), if_neg hb]
    rfl
  | @literal body hq hl =>
    rw [Lexeme.ofSegment_quoted, quoted, List.cons_append, List.append_assoc, scanLine,
      List.singleton_append, scanLine_body hq]
    rfl

end Reading

end Jack
