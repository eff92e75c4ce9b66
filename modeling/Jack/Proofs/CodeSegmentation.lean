import Jack.Proofs.LexerAgreement
import Mathlib.Data.List.Chain

namespace Jack

/-- A segment of code and the blanks before it. -/
structure Piece where
  blanks : List Char
  segment : List Char
  deriving DecidableEq, Repr

/-- A piece of code that is cut into segments, with the blanks after the last one. -/
structure Segmentation where
  pieces : List Piece
  last : List Char
  deriving DecidableEq, Repr

namespace Segmentation

def source (cut : Segmentation) : List Char :=
  cut.pieces.flatMap (fun piece => piece.blanks ++ piece.segment) ++ cut.last

def segments (cut : Segmentation) : List (List Char) := cut.pieces.map Piece.segment

end Segmentation

def IsWordRun (cs : List Char) : Prop := cs ≠ [] ∧ ∀ c ∈ cs, Text.isWord c

instance (cs : List Char) : Decidable (IsWordRun cs) :=
  decidable_of_iff (cs ≠ [] ∧ cs.all Text.isWord) (.and .rfl List.all_eq_true)

/-- A whole string literal, a word run, or one other character that is not a blank. -/
inductive IsCut : List Char → Prop where
  | literal (hq : '"' ∉ body) : IsCut (quoted body)
  | word (h : IsWordRun cs) : IsCut cs
  | single (hq : c ≠ '"') (hb : ¬ Text.isBlank c) (hw : ¬ Text.isWord c) : IsCut [c]

/-- Code is cut at its blanks, and no word run goes on in the segment after it. -/
structure Segmentation.Maximal (cut : Segmentation) : Prop where
  blanks : ∀ piece ∈ cut.pieces, ∀ c ∈ piece.blanks, Text.isBlank c
  last : ∀ c ∈ cut.last, Text.isBlank c
  segments : ∀ piece ∈ cut.pieces, IsCut piece.segment
  apart : cut.pieces.IsChain fun first second =>
    IsWordRun first.segment → IsWordRun second.segment → second.blanks ≠ []

/-- A string literal is left open in code with an odd number of quotes. -/
def OddQuotes (code : String) : Prop := code.toList.count '"' % 2 = 1

instance (code : String) : Decidable (OddQuotes code) :=
  inferInstanceAs (Decidable (code.toList.count '"' % 2 = 1))

/-- Code without the blanks that stand outside string literals. -/
def withoutOuterBlanks : (inString : Bool) → List Char → List Char
  | _, [] => []
  | inString, c :: cs =>
    let rest := withoutOuterBlanks (if c = '"' then !inString else inString) cs
    if !inString && Text.isBlank c then rest else c :: rest

section Quotes

theorem closeQuote?_eq_none_iff : closeQuote? cs = none ↔ '"' ∉ cs := by
  induction cs with
  | nil => simp [closeQuote?]
  | cons c cs ih =>
    by_cases hc : c = '"'
    · subst hc
      simp [closeQuote?]
    · simp [closeQuote?_cons_of_ne hc, ih, Ne.symm hc]

theorem closeQuote?_quoted (hq : '"' ∉ body) (rest : List Char) :
    closeQuote? (body ++ '"' :: rest) = some (body, rest) := by
  induction body with
  | nil => rfl
  | cons c body ih =>
    rw [List.mem_cons, not_or] at hq
    rw [List.cons_append, closeQuote?_cons_of_ne (Ne.symm hq.1), ih hq.2]
    rfl

theorem closeQuote?_eq_some (h : closeQuote? cs = some (body, rest)) :
    cs = body ++ '"' :: rest ∧ '"' ∉ body := by
  induction cs generalizing body with
  | nil => cases h
  | cons c cs ih =>
    by_cases hc : c = '"'
    · subst hc
      cases h
      exact ⟨rfl, List.not_mem_nil⟩
    · rw [closeQuote?_cons_of_ne hc] at h
      obtain ⟨⟨body, rest⟩, h, he⟩ := Option.map_eq_some_iff.1 h
      cases he
      obtain ⟨rfl, hq⟩ := ih h
      exact ⟨rfl, by simp [hq, Ne.symm hc]⟩

theorem quote_not_mem_of_isWord {word : List Char} (h : ∀ c ∈ word, Text.isWord c) : '"' ∉ word :=
  fun hm => Text.not_isWord_quote (h _ hm)

theorem segments?_eq_none_iff : segments? cs = none ↔ cs.count '"' % 2 = 1 := by
  fun_induction segments? cs with
  | case1 => simp
  | case2 cs hn => simp [List.count_eq_zero.2 (closeQuote?_eq_none_iff.1 hn)]
  | case3 cs body rest hs ih =>
    obtain ⟨rfl, hq⟩ := closeQuote?_eq_some hs
    rw [Option.map_eq_none_iff, ih, List.count_cons_self, List.count_append,
      List.count_eq_zero.2 hq, List.count_cons_self]
    omega
  | case4 c cs hc _ ih => rw [ih, List.count_cons_of_ne hc]
  | case5 c cs hc _ _ ih =>
    have hw : '"' ∉ cs.takeWhile Text.isWord :=
      quote_not_mem_of_isWord fun d => List.mem_takeWhile_imp
    have hcount : cs.count '"' = (cs.dropWhile Text.isWord).count '"' := by
      conv_lhs => rw [← List.takeWhile_append_dropWhile (p := Text.isWord) (l := cs)]
      rw [List.count_append, List.count_eq_zero.2 hw, Nat.zero_add]
    rw [Option.map_eq_none_iff, ih, List.count_cons_of_ne hc, hcount]
  | case6 c cs hc _ _ ih => rw [Option.map_eq_none_iff, ih, List.count_cons_of_ne hc]

end Quotes

section Blanks

theorem withoutOuterBlanks_blanks (h : ∀ c ∈ blanks, Text.isBlank c) (cs : List Char) :
    withoutOuterBlanks false (blanks ++ cs) = withoutOuterBlanks false cs := by
  induction blanks with
  | nil => rfl
  | cons c blanks ih =>
    obtain ⟨hc, h⟩ := List.forall_mem_cons.1 h
    simp [withoutOuterBlanks, ne_quote_of_isBlank hc, hc, ih h]

theorem withoutOuterBlanks_keep (hq : c ≠ '"') (hb : ¬ Text.isBlank c) (cs : List Char) :
    withoutOuterBlanks false (c :: cs) = c :: withoutOuterBlanks false cs := by
  simp [withoutOuterBlanks, hq, hb]

theorem withoutOuterBlanks_body (hq : '"' ∉ body) (cs : List Char) :
    withoutOuterBlanks true (body ++ '"' :: cs) = body ++ '"' :: withoutOuterBlanks false cs := by
  induction body with
  | nil => simp [withoutOuterBlanks]
  | cons c body ih =>
    rw [List.mem_cons, not_or] at hq
    simp [withoutOuterBlanks, Ne.symm hq.1, ih hq.2]

theorem IsCut.withoutOuterBlanks {segment : List Char} (h : IsCut segment) (cs : List Char) :
    withoutOuterBlanks false (segment ++ cs) = segment ++ withoutOuterBlanks false cs := by
  cases h with
  | @literal body hq =>
    have hbody := withoutOuterBlanks_body hq cs
    simp [quoted, Jack.withoutOuterBlanks, Text.not_isBlank_quote, hbody]
  | word h =>
    obtain ⟨-, hw⟩ := h
    induction segment with
    | nil => rfl
    | cons c word ih =>
      obtain ⟨hc, hw⟩ := List.forall_mem_cons.1 hw
      have hb : ¬ Text.isBlank c := fun hb => Text.not_isWord_of_isBlank hb hc
      rw [List.cons_append, withoutOuterBlanks_keep (ne_quote_of_isWord hc) hb, ih hw]
      rfl
  | single hq hb _ => exact withoutOuterBlanks_keep hq hb cs

end Blanks

theorem segments?_skip (h : ∀ c ∈ blanks, Text.isBlank c) (cs : List Char) :
    segments? (blanks ++ cs) = segments? cs := by
  induction blanks with
  | nil => rfl
  | cons c blanks ih =>
    obtain ⟨hc, h⟩ := List.forall_mem_cons.1 h
    rw [List.cons_append, segments?_blank hc, ih h]

theorem IsCut.segments? {segment : List Char} (h : IsCut segment)
    (hr : IsWordRun segment → ∀ c, rest.head? = some c → ¬ Text.isWord c) :
    segments? (segment ++ rest) = (segments? rest).map (segment :: ·) := by
  cases h with
  | @literal body hq =>
    have hc : quoted body ++ rest = '"' :: (body ++ '"' :: rest) := by simp [quoted]
    rw [hc, segments?_quote, closeQuote?_quoted hq]
    rfl
  | word h =>
    rw [segments?_word h.2 (hr h), wordSegments, if_neg (by simpa using h.1)]
    rfl
  | single hq hb hw => exact segments?_single hq hb hw rest

theorem IsCut.exists_cons (h : IsCut cs) :
    ∃ c rest, cs = c :: rest ∧ (Text.isWord c ↔ IsWordRun cs) := by
  have hn {c : Char} {rest : List Char} (hc : ¬ Text.isWord c) :
      Text.isWord c ↔ IsWordRun (c :: rest) :=
    iff_of_false hc fun hw => hc (hw.2 c (List.mem_cons_self ..))
  cases h with
  | literal => exact ⟨_, _, rfl, hn Text.not_isWord_quote⟩
  | single _ _ hw => exact ⟨_, _, rfl, hn hw⟩
  | word h =>
    obtain ⟨c, rest, rfl⟩ := List.exists_cons_of_ne_nil h.1
    exact ⟨c, rest, rfl, iff_of_true (h.2 c (List.mem_cons_self ..)) h⟩

namespace Segmentation

variable {cut : Segmentation} {piece : Piece} {pieces : List Piece} {last : List Char}

theorem source_cons : source ⟨piece :: pieces, last⟩ =
    piece.blanks ++ (piece.segment ++ source ⟨pieces, last⟩) := by
  simp [source]

theorem Maximal.head (h : Maximal ⟨pieces, last⟩) :
    (∀ c, (source ⟨pieces, last⟩).head? = some c → ¬ Text.isWord c) ↔
      ∀ next ∈ pieces.head?, IsWordRun next.segment → next.blanks ≠ [] := by
  cases pieces with
  | nil =>
    have hlast : ∀ c, last.head? = some c → ¬ Text.isWord c :=
      fun c hc => Text.not_isWord_of_isBlank (h.last c (List.mem_of_head? hc))
    exact iff_of_true hlast nofun
  | cons piece pieces =>
    obtain ⟨blanks, segment⟩ := piece
    rw [source_cons, List.head?_cons]
    cases blanks with
    | cons c blanks =>
      have hc : Text.isBlank c := h.blanks _ (List.mem_cons_self ..) c (List.mem_cons_self ..)
      refine iff_of_true ?_ ?_
      · rintro _ ⟨⟩
        exact Text.not_isWord_of_isBlank hc
      · rintro _ ⟨⟩ -
        exact List.cons_ne_nil c blanks
    | nil =>
      obtain ⟨c, rest, hs, hw⟩ := (h.segments _ (List.mem_cons_self ..)).exists_cons
      dsimp only at hs hw
      rw [hs] at hw
      simp [hs, ← hw]

/-- A cut is maximal when the cut of the code after its first segment is, and no word run goes on
there. -/
theorem maximal_cons_iff :
    Maximal ⟨piece :: pieces, last⟩ ↔
      (∀ c ∈ piece.blanks, Text.isBlank c) ∧ IsCut piece.segment ∧
        (IsWordRun piece.segment →
          ∀ c, (source ⟨pieces, last⟩).head? = some c → ¬ Text.isWord c) ∧
        Maximal ⟨pieces, last⟩ := by
  constructor
  · intro h
    obtain ⟨hb, hblanks⟩ := List.forall_mem_cons.1 h.blanks
    obtain ⟨hs, hsegments⟩ := List.forall_mem_cons.1 h.segments
    obtain ⟨ha, hapart⟩ := List.isChain_cons.1 h.apart
    have hrest : Maximal ⟨pieces, last⟩ := ⟨hblanks, h.last, hsegments, hapart⟩
    exact ⟨hb, hs, fun hw => hrest.head.2 fun next hn => ha next hn hw, hrest⟩
  · rintro ⟨hb, hs, hw, h⟩
    refine ⟨List.forall_mem_cons.2 ⟨hb, h.blanks⟩, h.last, List.forall_mem_cons.2 ⟨hs, h.segments⟩,
      List.isChain_cons.2 ⟨fun next hn hw' => h.head.1 (hw hw') next hn, h.apart⟩⟩

theorem Maximal.flatten_segments {cut : Segmentation} (h : cut.Maximal) :
    cut.segments.flatten = withoutOuterBlanks false cut.source := by
  obtain ⟨pieces, last⟩ := cut
  induction pieces with
  | nil =>
    have hl := withoutOuterBlanks_blanks h.last []
    rw [List.append_nil] at hl
    exact hl.symm
  | cons piece pieces ih =>
    obtain ⟨hb, hs, -, h⟩ := maximal_cons_iff.1 h
    rw [source_cons, withoutOuterBlanks_blanks hb, hs.withoutOuterBlanks, ← ih h]
    rfl

/-- The segments of a maximal cut are those that the code is cut into. -/
theorem Maximal.segments?_source {cut : Segmentation} (h : cut.Maximal) :
    segments? cut.source = some cut.segments := by
  obtain ⟨pieces, last⟩ := cut
  induction pieces with
  | nil => exact segments?_blanks h.last
  | cons piece pieces ih =>
    obtain ⟨hb, hs, hw, h⟩ := maximal_cons_iff.1 h
    rw [source_cons, segments?_skip hb, hs.segments? hw, ih h]
    rfl

def addBlank (c : Char) : Segmentation → Segmentation
  | ⟨[], last⟩ => ⟨[], c :: last⟩
  | ⟨piece :: pieces, last⟩ => ⟨{ piece with blanks := c :: piece.blanks } :: pieces, last⟩

theorem Maximal.addBlank {cut : Segmentation} (h : cut.Maximal) (hc : Text.isBlank c) :
    (cut.addBlank c).Maximal ∧ (cut.addBlank c).source = c :: cut.source ∧
      (cut.addBlank c).segments = cut.segments := by
  obtain ⟨_ | ⟨piece, pieces⟩, last⟩ := cut
  · exact ⟨⟨nofun, List.forall_mem_cons.2 ⟨hc, h.last⟩, nofun, .nil⟩, rfl, rfl⟩
  · obtain ⟨hb, hs, hw, h⟩ := maximal_cons_iff.1 h
    exact ⟨maximal_cons_iff.2 ⟨List.forall_mem_cons.2 ⟨hc, hb⟩, hs, hw, h⟩, rfl, rfl⟩

theorem exists_cut_cons {segment : List Char} (hs : IsCut segment)
    (hw : IsWordRun segment → ∀ c, rest.head? = some c → ¬ Text.isWord c)
    (h : ∃ cut : Segmentation, cut.Maximal ∧ cut.source = rest ∧ cut.segments = found) :
    ∃ cut : Segmentation, cut.Maximal ∧ cut.source = segment ++ rest ∧
      cut.segments = segment :: found := by
  obtain ⟨⟨pieces, last⟩, hm, rfl, rfl⟩ := h
  exact ⟨⟨⟨[], segment⟩ :: pieces, last⟩, maximal_cons_iff.2 ⟨nofun, hs, hw, hm⟩, source_cons, rfl⟩

theorem maximal_nil : Maximal ⟨[], []⟩ where
  blanks := List.forall_mem_nil _
  last := List.forall_mem_nil _
  segments := List.forall_mem_nil _
  apart := .nil

theorem exists_cut (h : segments? cs = some found) :
    ∃ cut : Segmentation, cut.Maximal ∧ cut.source = cs ∧ cut.segments = found := by
  fun_induction segments? cs generalizing found with
  | case1 =>
    cases h
    exact ⟨⟨[], []⟩, maximal_nil, rfl, rfl⟩
  | case2 => cases h
  | case3 cs body rest hs ih =>
    obtain ⟨found, hf, rfl⟩ := Option.map_eq_some_iff.1 h
    obtain ⟨rfl, hq⟩ := closeQuote?_eq_some hs
    have hnot : ¬ IsWordRun (quoted body) :=
      fun hw => Text.not_isWord_quote (hw.2 _ (List.mem_cons_self ..))
    have hcut := exists_cut_cons (.literal hq) (fun hw => absurd hw hnot) (ih hf)
    simpa [quoted] using hcut
  | case4 c cs _ hb ih =>
    obtain ⟨cut, hm, rfl, rfl⟩ := ih h
    exact ⟨cut.addBlank c, hm.addBlank hb⟩
  | case5 c cs _ _ hc ih =>
    obtain ⟨found, hf, rfl⟩ := Option.map_eq_some_iff.1 h
    have hword : IsWordRun (c :: cs.takeWhile Text.isWord) :=
      ⟨List.cons_ne_nil _ _, List.forall_mem_cons.2 ⟨hc, fun d => List.mem_takeWhile_imp⟩⟩
    have hrest (d : Char) (hd : (cs.dropWhile Text.isWord).head? = some d) : ¬ Text.isWord d := by
      have hn := List.head?_dropWhile_not Text.isWord cs
      rw [hd] at hn
      simpa using hn
    have hcut := exists_cut_cons (.word hword) (fun _ => hrest) (ih hf)
    rwa [List.cons_append, List.takeWhile_append_dropWhile] at hcut
  | case6 c cs hq hb hw ih =>
    obtain ⟨found, hf, rfl⟩ := Option.map_eq_some_iff.1 h
    have hnot : ¬ IsWordRun [c] := fun hr => hw (hr.2 c (List.mem_cons_self ..))
    exact exists_cut_cons (.single hq hb hw) (fun hr => absurd hr hnot) (ih hf)

end Segmentation

/-- Code has the tokens of its maximal cut, of which there is one at most. -/
theorem codeTokens?_eq_some_iff : codeTokens? code line = some tokens ↔
    ∃ cut : Segmentation, cut.Maximal ∧ cut.source = code.toList ∧
      segmentTokens line cut.segments = tokens := by
  rw [codeTokens?, Option.map_eq_some_iff]
  constructor
  · rintro ⟨segments, h, rfl⟩
    obtain ⟨cut, hm, hs, rfl⟩ := Segmentation.exists_cut h
    exact ⟨cut, hm, hs, rfl⟩
  · rintro ⟨cut, hm, hs, rfl⟩
    exact ⟨cut.segments, hs ▸ hm.segments?_source, rfl⟩

theorem codeTokens?_eq_none_iff : codeTokens? code line = none ↔ OddQuotes code := by
  rw [codeTokens?, Option.map_eq_none_iff, segments?_eq_none_iff]
  rfl

theorem SourceLine.tokens_eq_error_iff {record : SourceLine} :
    record.tokens line = .error e ↔
      OddQuotes record.codePart ∧ e = .unterminatedString line := by
  rw [← codeTokens?_eq_none_iff, tokens]
  cases codeTokens? record.codePart line <;> simp [eq_comm]

theorem tokensFrom_cons_eq_error_iff (ht : SourceLine.tokens line record = .ok tokens)
    (records : List SourceLine) :
    tokensFrom line (record :: records) = .error e ↔ tokensFrom (line + 1) records = .error e := by
  rw [tokensFrom, ht]
  cases tokensFrom (line + 1) records <;> simp

theorem tokensFrom_eq_error_iff {records : List SourceLine} :
    tokensFrom line records = .error e ↔
      ∃ index, records.findIdx? (fun record => OddQuotes record.codePart) = some index ∧
        e = .unterminatedString (line + index) := by
  induction records generalizing line with
  | nil => simp [tokensFrom]
  | cons record records ih =>
    rw [List.findIdx?_cons]
    by_cases ho : OddQuotes record.codePart
    · rw [tokensFrom, SourceLine.tokens_eq_error_iff.2 ⟨ho, rfl⟩]
      simp [ho, eq_comm]
    · cases ht : record.tokens line with
      | error e => exact absurd (SourceLine.tokens_eq_error_iff.1 ht).1 ho
      | ok tokens =>
        rw [tokensFrom_cons_eq_error_iff ht, ih]
        simp [ho, Nat.add_assoc, Nat.add_comm 1]

/-- The segmentation of code is lossless and maximal, and fails only on an odd number of quotes:
otherwise the tokens are those of the segments of a maximal cut of the code, which joined are the
code without the blanks outside string literals. Tokenizing lines fails exactly when a string
literal is left open in the code of one of them, and names the first of these lines. -/
theorem segmentation_lossless :
    (∀ code line,
      (codeTokens? code line = none ↔ OddQuotes code) ∧
      ∀ tokens, codeTokens? code line = some tokens ↔
        ∃ cut : Segmentation, cut.source = code.toList ∧ cut.Maximal ∧
          cut.segments.flatten = withoutOuterBlanks false code.toList ∧
          tokens = segmentTokens line cut.segments) ∧
    ∀ records,
      ((∃ e, tokenize records = .error e) ↔ ∃ record ∈ records, OddQuotes record.codePart) ∧
      ∀ e, tokenize records = .error e ↔
        ∃ index, ∃ _ : index < records.length, OddQuotes records[index].codePart ∧
          (∀ earlier (_ : earlier < index), ¬ OddQuotes records[earlier].codePart) ∧
          e = .unterminatedString (index + 1) := by
  refine ⟨fun code line => ⟨codeTokens?_eq_none_iff, fun tokens => ?_⟩, fun records => ⟨?_, ?_⟩⟩
  · rw [codeTokens?_eq_some_iff]
    constructor
    · rintro ⟨cut, hm, hs, rfl⟩
      exact ⟨cut, hs, hm, hs ▸ hm.flatten_segments, rfl⟩
    · rintro ⟨cut, hs, hm, -, rfl⟩
      exact ⟨cut, hm, hs, rfl⟩
  · have hfails : (∃ e, tokenize records = .error e) ↔
        ∃ index, records.findIdx? (fun record => OddQuotes record.codePart) = some index := by
      simp [tokenize, tokensFrom_eq_error_iff]
    rw [hfails, ← Option.isSome_iff_exists, List.findIdx?_isSome]
    simp
  · intro e
    simp only [tokenize, tokensFrom_eq_error_iff, List.findIdx?_eq_some_iff_getElem,
      decide_eq_true_eq, Nat.add_comm 1]
    constructor
    · rintro ⟨index, ⟨hi, ho, hfirst⟩, he⟩
      exact ⟨index, hi, ho, fun earlier => hfirst earlier, he⟩
    · rintro ⟨index, hi, ho, hfirst, he⟩
      exact ⟨index, ⟨hi, ho, fun earlier => hfirst earlier⟩, he⟩

def spreadCode : String := "é1+ \"a b\n\"\tc"

def spreadCut : Segmentation :=
  ⟨[⟨[], ['é', '1']⟩, ⟨[], ['+']⟩, ⟨[' '], quoted ['a', ' ', 'b', '\n']⟩, ⟨['\t'], ['c']⟩], []⟩

def openRecords : List SourceLine :=
  [.code "\"\"", .comment "\"", .codeWithComment "\"\"\"" "", .code "\""]

theorem spreadCut_maximal : spreadCut.Maximal where
  blanks := by
    simp only [spreadCut, List.forall_mem_cons]
    exact ⟨nofun, nofun, ⟨by decide, nofun⟩, ⟨by decide, nofun⟩, nofun⟩
  last := nofun
  segments := by
    have hword {cs : List Char} (h : IsWordRun cs) : IsCut cs := .word h
    simp only [spreadCut, List.forall_mem_cons]
    exact ⟨hword (by decide), .single (by decide) (by decide) (by decide), .literal (by decide),
      hword (by decide), nofun⟩
  apart := by decide

theorem spreadCode_segmentation :
    codeTokens? spreadCode 4 = some (segmentTokens 4 spreadCut.segments) ∧
      tokenize openRecords = .error (.unterminatedString 3) := by
  obtain ⟨hcode, hrecords⟩ := segmentation_lossless
  exact ⟨((hcode spreadCode 4).2 _).2 ⟨spreadCut, by decide, spreadCut_maximal, by decide, rfl⟩,
    ((hrecords openRecords).2 _).2 ⟨2, by decide, by decide, by decide, rfl⟩⟩

end Jack
