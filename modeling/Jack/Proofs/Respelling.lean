import Jack.Proofs.Spelling

namespace Jack

def onLine (line : Nat) (ts : List Token) : List Token := ts.filter fun t => t.line = line

/-- The spellings of tokens, joined by single spaces. -/
def spelledLine (ts : List Token) : List Char :=
  List.intercalate [' '] (ts.map fun t => t.lexeme.spelling)

def lastLine (ts : List Token) : Nat := ts.foldr (fun t last => max t.line last) 0

/-- The text in which each line spells the tokens that stand on it. -/
def respelled (ts : List Token) : String :=
  String.ofList <| List.intercalate ['\n'] <|
    (List.range' 1 (lastLine ts)).map fun line => spelledLine (onLine line ts)

namespace Text

theorem lines_cons (hl : c ≠ '\n') (hr : c = '\r' → cs.head? ≠ some '\n') :
    lines (c :: cs) =
      match lines cs with
      | [] => [[c]]
      | line :: more => (c :: line) :: more := by
  refine lines.eq_4 c cs hl fun rest hc hcs => hr hc ?_
  rw [hcs]
  rfl

theorem not_mem_of_mem_lines (h : line ∈ lines cs) : '\n' ∉ line := by
  fun_induction lines cs generalizing line with
  | case1 => cases h
  | case2 rest ih =>
    obtain rfl | h := List.mem_cons.1 h
    · exact List.not_mem_nil
    · exact ih h
  | case3 rest ih =>
    obtain rfl | h := List.mem_cons.1 h
    · exact List.not_mem_nil
    · exact ih h
  | case4 c rest hl _ hn ih =>
    obtain rfl := List.mem_singleton.1 h
    exact fun hm => hl (List.mem_singleton.1 hm).symm
  | case5 c rest hl _ first more hn ih =>
    rw [hn] at ih
    obtain rfl | h := List.mem_cons.1 h
    · intro hm
      obtain hm | hm := List.mem_cons.1 hm
      · exact hl hm.symm
      · exact ih (List.mem_cons_self ..) hm
    · exact ih (List.mem_cons_of_mem _ h)

theorem lines_single (hn : cs ≠ []) (hl : '\n' ∉ cs) : lines cs = [cs] := by
  induction cs with
  | nil => exact absurd rfl hn
  | cons c cs ih =>
    rw [List.mem_cons, not_or] at hl
    rw [lines_cons (Ne.symm hl.1) fun _ hh => hl.2 (List.mem_of_head? hh)]
    cases cs with
    | nil => rfl
    | cons d cs => rw [ih (List.cons_ne_nil d cs) hl.2]

theorem lines_append_lineFeed (hl : '\n' ∉ cs) (hr : cs.getLast? ≠ some '\r') (rest : List Char) :
    lines (cs ++ '\n' :: rest) = cs :: lines rest := by
  induction cs with
  | nil => rfl
  | cons c cs ih =>
    rw [List.mem_cons, not_or] at hl
    have hc : c = '\r' → (cs ++ '\n' :: rest).head? ≠ some '\n' := by
      rintro rfl hh
      cases cs with
      | nil => exact hr rfl
      | cons d cs => exact hl.2 (List.mem_of_head? hh)
    have hr' : cs.getLast? ≠ some '\r' := by
      intro hh
      cases cs with
      | nil => cases hh
      | cons d cs => exact hr (by rw [List.getLast?_cons_cons, hh])
    rw [List.cons_append, lines_cons (Ne.symm hl.1) hc, ih hl.2 hr']

/-- Lines that are joined by line feeds are read back, unless the last one is empty. -/
theorem lines_intercalate (h : ∀ l ∈ ls, '\n' ∉ l ∧ l.getLast? ≠ some '\r')
    (hn : ls.getLast? ≠ some []) : lines (List.intercalate ['\n'] ls) = ls := by
  induction ls with
  | nil => rfl
  | cons l ls ih =>
    rw [List.forall_mem_cons] at h
    cases ls with
    | nil =>
      rw [List.intercalate_singleton]
      exact lines_single (fun he => hn (by rw [he]; rfl)) h.1.1
    | cons l' ls =>
      rw [List.getLast?_cons_cons] at hn
      rw [List.intercalate_cons_cons, List.append_assoc, List.singleton_append,
        lines_append_lineFeed h.1.1 h.1.2, ih h.2 hn]

end Text

theorem spelledLine_singleton (t : Token) : spelledLine [t] = t.lexeme.spelling :=
  List.intercalate_singleton

theorem spelledLine_cons_cons (t u : Token) (ts : List Token) :
    spelledLine (t :: u :: ts) = t.lexeme.spelling ++ ' ' :: spelledLine (u :: ts) := by
  rw [spelledLine, List.map_cons, List.map_cons, List.intercalate_cons_cons, List.append_assoc]
  rfl

theorem scanLine_spelledLine (h : ReadableOn line ts) :
    scanLine line (.code []) (spelledLine ts) = (ts, .code []) := by
  induction ts with
  | nil => rfl
  | cons t ts ih =>
    rw [ReadableOn, List.forall_mem_cons] at h
    obtain ⟨⟨hline, hseg, hlex⟩, h⟩ := h
    have ht : Token.mk (Lexeme.ofSegment (String.ofList t.lexeme.spelling)) line = t := by
      rw [hlex, ← hline]
    have hs (rest : List Char) (hr : EndsSegment rest) :
        scanLine line (.code []) (t.lexeme.spelling ++ rest) =
          (t :: (scanLine line (.code []) rest).1, (scanLine line (.code []) rest).2) := by
      rw [scanLine_segment hseg hr, ht]
    cases ts with
    | nil =>
      rw [spelledLine_singleton, ← List.append_nil t.lexeme.spelling]
      exact hs [] fun c hc => nomatch hc
    | cons u ts =>
      have hspace : EndsSegment (' ' :: spelledLine (u :: ts)) := by
        rintro _ ⟨⟩
        rfl
      rw [spelledLine_cons_cons, hs _ hspace, scanLine_space, ih h]
      rfl

structure Printed (cs : List Char) : Prop where
  ne_nil : cs ≠ []
  oneLine : '\n' ∉ cs
  last : ∀ c, cs.getLast? = some c → ¬ Text.isBlank c

theorem IsSegment.printed (h : IsSegment cs) : Printed cs := by
  cases h with
  | word hn hw =>
    have hb : ∀ c ∈ cs, ¬ Text.isBlank c :=
      fun c hc hb => Text.not_isWord_of_isBlank hb (hw c hc)
    exact ⟨hn, fun hm => hb _ hm Text.isBlank_lineFeed,
      fun c hc => hb c (List.mem_of_getLast? hc)⟩
  | @single c hq hb hw =>
    refine ⟨List.cons_ne_nil _ _, fun hm => ?_, ?_⟩
    · rw [← List.mem_singleton.1 hm] at hb
      exact hb Text.isBlank_lineFeed
    · rintro _ ⟨⟩
      exact hb
  | @literal body hq hl =>
    refine ⟨List.cons_ne_nil _ _, ?_, ?_⟩
    · simp [quoted, hl]
    · intro c hc
      rw [quoted, ← List.cons_append, List.getLast?_append] at hc
      cases hc
      exact Text.not_isBlank_quote

theorem Printed.append (h : Printed cs) (h' : Printed ds) : Printed (cs ++ ' ' :: ds) := by
  refine ⟨fun he => h.ne_nil (List.append_eq_nil_iff.1 he).1, ?_, ?_⟩
  · simp [h.oneLine, h'.oneLine]
  · intro c hc
    have hl : ds.getLast?.isSome := List.getLast?_isSome.2 h'.ne_nil
    rw [← List.singleton_append, ← List.append_assoc, List.getLast?_append,
      Option.or_of_isSome hl] at hc
    exact h'.last c hc

theorem printed_spelledLine (h : ReadableOn line ts) (hn : ts ≠ []) :
    Printed (spelledLine ts) := by
  induction ts with
  | nil => exact absurd rfl hn
  | cons t ts ih =>
    rw [ReadableOn, List.forall_mem_cons] at h
    cases ts with
    | nil =>
      rw [spelledLine_singleton]
      exact h.1.2.segment.printed
    | cons u ts =>
      rw [spelledLine_cons_cons]
      exact h.1.2.segment.printed.append (ih h.2 (List.cons_ne_nil u ts))

theorem onLine_append_later (hs : ts.Pairwise fun t u => t.line ≤ u.line)
    (hb : ∀ t ∈ ts, start ≤ t.line) :
    onLine start ts ++ ts.filter (fun t => start < t.line) = ts := by
  induction ts with
  | nil => rfl
  | cons t ts ih =>
    rw [List.pairwise_cons] at hs
    rw [List.forall_mem_cons] at hb
    obtain ht | ht := Nat.eq_or_lt_of_le hb.1
    · rw [onLine, List.filter_cons_of_pos (by simpa using ht.symm),
        List.filter_cons_of_neg (by simp [ht]), List.cons_append]
      exact congrArg _ (ih hs.2 hb.2)
    · have hall : ∀ u ∈ t :: ts, start < u.line :=
        List.forall_mem_cons.2 ⟨ht, fun u hu => Nat.lt_of_lt_of_le ht (hs.1 u hu)⟩
      have hnone : onLine start (t :: ts) = [] :=
        List.filter_eq_nil_iff.2 fun u hu => by simpa using Nat.ne_of_gt (hall u hu)
      rw [hnone, List.nil_append, List.filter_eq_self.2 (by simpa using hall)]

theorem onLine_later (h : start < line) (ts : List Token) :
    onLine line (ts.filter fun t => start < t.line) = onLine line ts := by
  rw [onLine, List.filter_filter, onLine]
  apply List.filter_congr
  intro t _
  by_cases ht : t.line = line <;> simp [ht, h]

theorem flatMap_onLine (hs : ts.Pairwise fun t u => t.line ≤ u.line)
    (hb : ∀ t ∈ ts, start ≤ t.line ∧ t.line < start + count) :
    (List.range' start count).flatMap (onLine · ts) = ts := by
  induction count generalizing start ts with
  | zero =>
    cases ts with
    | nil => rfl
    | cons t ts =>
      have ht := hb t (List.mem_cons_self ..)
      omega
  | succ count ih =>
    have hb' : ∀ t ∈ ts.filter fun t => start < t.line,
        start + 1 ≤ t.line ∧ t.line < start + 1 + count := by
      intro t ht
      obtain ⟨hm, hlt⟩ := List.mem_filter.1 ht
      have hu := (hb t hm).2
      simp only [decide_eq_true_eq] at hlt
      omega
    have hlater : (List.range' (start + 1) count).flatMap (onLine · ts) =
        ts.filter fun t => start < t.line := by
      rw [← ih (hs.filter _) hb', List.flatMap_def, List.flatMap_def]
      congr 1
      apply List.map_congr_left
      intro line hline
      exact (onLine_later (List.mem_range'_1.1 hline).1 ts).symm
    rw [List.range'_succ, List.flatMap_cons, hlater]
    exact onLine_append_later hs fun t ht => (hb t ht).1

theorem readableOn_onLine (h : ∀ t ∈ ts, t.Readable) (line : Nat) :
    ReadableOn line (onLine line ts) := by
  intro t ht
  obtain ⟨hm, hl⟩ := List.mem_filter.1 ht
  exact ⟨of_decide_eq_true hl, h t hm⟩

theorem scanLines_spelledLines (h : ∀ t ∈ ts, t.Readable) (start count : Nat) :
    scanLines start none ((List.range' start count).map fun line => spelledLine (onLine line ts)) =
      ⟨(List.range' start count).flatMap (onLine · ts), none, none⟩ := by
  induction count generalizing start with
  | zero => rfl
  | succ count ih =>
    have hl := scanLine_spelledLine (readableOn_onLine h start)
    simp only [List.range'_succ, List.map_cons, List.flatMap_cons, scanLines,
      ScanState.ofOpenBlock, hl, ScanState.openBlock, ScanState.inString, ih, Bool.false_eq_true,
      if_false]

/-- A scanner finds tokens in the order of their lines, and each of them can be read back. -/
theorem scanLines_tokens (line : Nat) (openBlock : Option Nat) (h : ∀ raw ∈ raws, '\n' ∉ raw) :
    (scanLines line openBlock raws).tokens.Pairwise (fun t u => t.line ≤ u.line) ∧
      ∀ t ∈ (scanLines line openBlock raws).tokens, line ≤ t.line ∧ t.Readable := by
  induction raws generalizing line openBlock with
  | nil => exact ⟨.nil, fun t ht => nomatch ht⟩
  | cons raw raws ih =>
    rw [List.forall_mem_cons] at h
    have hstate : (ScanState.ofOpenBlock openBlock).Partial := by
      cases openBlock with
      | none => exact ScanState.partial_code_nil
      | some => trivial
    have hfirst := scanLine_readableOn line _ raw hstate h.1
    obtain ⟨hsorted, hlater⟩ :=
      ih (line + 1) (scanLine line (.ofOpenBlock openBlock) raw).2.openBlock h.2
    simp only [scanLines]
    constructor
    · refine List.pairwise_append.2 ⟨?_, hsorted, fun t ht u hu => ?_⟩
      · exact List.pairwise_of_forall_mem_list fun t ht u hu => by
          rw [(hfirst t ht).1, (hfirst u hu).1]
      · rw [(hfirst t ht).1]
        exact Nat.le_of_succ_le (hlater u hu).1
    · intro t ht
      obtain ht | ht := List.mem_append.1 ht
      · exact ⟨Nat.le_of_eq (hfirst t ht).1.symm, (hfirst t ht).2⟩
      · exact ⟨Nat.le_of_succ_le (hlater t ht).1, (hlater t ht).2⟩

theorem le_lastLine (h : t ∈ ts) : t.line ≤ lastLine ts := by
  induction ts with
  | nil => cases h
  | cons u ts ih =>
    obtain rfl | h := List.mem_cons.1 h
    · exact Nat.le_max_left _ _
    · exact Nat.le_trans (ih h) (Nat.le_max_right _ _)

theorem exists_on_lastLine (h : lastLine ts ≠ 0) : ∃ t ∈ ts, t.line = lastLine ts := by
  induction ts with
  | nil => exact absurd rfl h
  | cons u ts ih =>
    change max u.line (lastLine ts) ≠ 0 at h
    change ∃ t ∈ u :: ts, t.line = max u.line (lastLine ts)
    obtain hu | hu := Nat.le_total (lastLine ts) u.line
    · exact ⟨u, List.mem_cons_self .., (Nat.max_eq_left hu).symm⟩
    · rw [Nat.max_eq_right hu] at h ⊢
      obtain ⟨t, ht, hl⟩ := ih h
      exact ⟨t, List.mem_cons_of_mem _ ht, hl⟩

theorem onLine_lastLine_ne_nil (h : lastLine ts ≠ 0) : onLine (lastLine ts) ts ≠ [] := by
  obtain ⟨t, ht, hl⟩ := exists_on_lastLine h
  exact List.ne_nil_of_mem (List.mem_filter.2 ⟨ht, decide_eq_true hl⟩)

theorem lines_respelled (h : ∀ t ∈ ts, t.Readable) :
    Text.lines (respelled ts).toList =
      (List.range' 1 (lastLine ts)).map fun line => spelledLine (onLine line ts) := by
  rw [respelled, String.toList_ofList]
  have hprinted (line : Nat) (hn : onLine line ts ≠ []) :=
    printed_spelledLine (readableOn_onLine h line) hn
  apply Text.lines_intercalate
  · intro raw hraw
    obtain ⟨line, _, rfl⟩ := List.mem_map.1 hraw
    by_cases hn : onLine line ts = []
    · rw [hn]
      exact ⟨List.not_mem_nil, fun he => nomatch he⟩
    · exact ⟨(hprinted line hn).oneLine,
        fun he => (hprinted line hn).last _ he Text.isBlank_carriageReturn⟩
  · intro he
    rw [List.getLast?_map, List.getLast?_range'] at he
    split at he
    · cases he
    · next hn =>
      rw [Nat.add_sub_cancel_left] at he
      exact (hprinted _ (onLine_lastLine_ne_nil hn)).ne_nil (Option.some.inj he)

theorem tokenizeText_result (options : Options) (text : String) :
    (tokenizeText options text).result = ((sourceLines text).bind tokenize).map options.select := by
  rw [tokenizeText]
  cases sourceLines text with
  | error e => rfl
  | ok records =>
    change ((tokenizeLines records).andThen _).result = (tokenize records).map options.select
    rw [tokenizeLines]
    cases tokenize records <;> rfl

theorem tokenizeText_eq_outcome (text : String) :
    (tokenizeText ⟨false⟩ text).result = (scan text).outcome := by
  rw [tokenizeText_result, ← tokenize_eq_outcome]
  rfl

theorem Scan.outcome_eq_ok {scan : Scan} (h : scan.outcome = .ok ts) : scan.tokens = ts := by
  rw [Scan.outcome] at h
  split at h
  · cases h
  · cases h
  · exact Except.ok.inj h

/-- Tokens without comments can be written back: the text that spells them line by line has the
same tokens on the same lines. -/
theorem tokens_of_respelled (h : (tokenizeText ⟨false⟩ text).result = .ok ts) :
    (tokenizeText ⟨false⟩ (respelled ts)).result = .ok ts := by
  rw [tokenizeText_eq_outcome] at h ⊢
  have hscan : (scanLines 1 none (Text.lines text.toList)).tokens = ts := Scan.outcome_eq_ok h
  obtain ⟨hsorted, htokens⟩ := scanLines_tokens 1 none
    fun raw (hr : raw ∈ Text.lines text.toList) => Text.not_mem_of_mem_lines hr
  rw [hscan] at hsorted htokens
  have hreadable : ∀ t ∈ ts, t.Readable := fun t ht => (htokens t ht).2
  have hlines : ∀ t ∈ ts, 1 ≤ t.line ∧ t.line < 1 + lastLine ts := fun t ht =>
    ⟨(htokens t ht).1, Nat.lt_one_add_iff.2 (le_lastLine ht)⟩
  rw [scan, lines_respelled hreadable, scanLines_spelledLines hreadable,
    flatMap_onLine hsorted hlines]
  rfl

/-- A text with comments between its symbols and inside a string constant. -/
def crowdedText : String := "let a=\"/* b\"; // c\r\n\n\tx/007/**//99999999999999999999 é"

def crowdedTokens : List Token := [
  ⟨.keyword .let_, 1⟩, ⟨.identifier "a", 1⟩, ⟨.symbol '=', 1⟩, ⟨.string "/* b", 1⟩,
  ⟨.symbol ';', 1⟩, ⟨.identifier "x", 3⟩, ⟨.symbol '/', 3⟩, ⟨.integer 7, 3⟩, ⟨.symbol '/', 3⟩,
  ⟨.identifier "99999999999999999999", 3⟩, ⟨.identifier "é", 3⟩]

theorem crowdedText_respelled :
    (tokenizeText ⟨false⟩ crowdedText).result = .ok crowdedTokens ∧
      respelled crowdedTokens = "let a = \"/* b\" ;\n\nx / 7 / 99999999999999999999 é" ∧
      (tokenizeText ⟨false⟩ (respelled crowdedTokens)).result = .ok crowdedTokens := by
  have h : (tokenizeText ⟨false⟩ crowdedText).result = .ok crowdedTokens :=
    (tokenizeText_eq_outcome crowdedText).trans rfl
  exact ⟨h, rfl, tokens_of_respelled h⟩

end Jack
