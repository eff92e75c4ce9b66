import Jack.Proofs.CommentCuts
import Jack.Proofs.LineBoundary
import Mathlib.Data.List.Forall2

namespace Jack

namespace LineCut

/-- The pieces that are not empty, joined by single spaces. -/
def text (cut : LineCut) : String :=
  String.ofList (List.intercalate [' '] (cut.pieces.filter fun piece => piece ≠ []))

/-- The comment tokens of a line: one if the line has a piece. -/
def commentTokens (line : Nat) (cut : LineCut) : List Token :=
  if cut.pieces = [] then [] else [⟨.comment cut.text, line⟩]

/-- The record of a line keeps the text of its pieces, and tells whether there is code. -/
structure RecordedAs (cut : LineCut) (record : SourceLine) : Prop where
  code : cut.pieces = [] → ∃ code, record = .code code
  text : cut.pieces ≠ [] → record.commentPart? = some cut.text
  comment : cut.pieces ≠ [] →
    ((∃ text, record = .comment text) ↔ ∀ c ∈ cut.outside, Text.isBlank c)

end LineCut

theorem CutLine.text_eq (h : CutLine inBlock raw cut stillOpen) :
    cut.text = String.ofList (List.intercalate [' '] cut.pieces) := by
  rw [LineCut.text]
  obtain h | ⟨h, _⟩ := h.solid
  · rw [List.filter_eq_self.2 fun piece hp => by simpa using (h piece hp).ne_nil]
  · rw [h]
    rfl

theorem CutLine.recorded (h : CutLine openBlock.isSome raw cut stillOpen) (line : Nat) :
    cut.RecordedAs (.ofParts (.ofLine line openBlock raw)) := by
  have hp := h.parts line
  have ht : String.ofList (commentText (LineParts.ofLine line openBlock raw).comments) =
      cut.text := by
    rw [h.text_eq, commentText, hp.pieces]
  have hn : (LineParts.ofLine line openBlock raw).comments.isEmpty = true ↔ cut.pieces = [] := by
    rw [← hp.pieces, List.map_eq_nil_iff, List.isEmpty_iff]
  have hb : (LineParts.ofLine line openBlock raw).code.all Text.isBlank = true ↔
      ∀ c ∈ cut.outside, Text.isBlank c := by
    rw [hp.blank, List.all_eq_true]
  rw [SourceLine.ofParts, ht]
  split
  · next he =>
    have hnone (hc : cut.pieces ≠ []) : False := hc (hn.1 he)
    exact ⟨fun _ => ⟨_, rfl⟩, fun hc => (hnone hc).elim, fun hc => (hnone hc).elim⟩
  next he =>
  have hsome (hc : cut.pieces = []) : False := he (hn.2 hc)
  split
  · next hblank =>
    refine ⟨fun hc => (hsome hc).elim, fun _ => rfl, fun _ => ?_⟩
    exact ⟨fun _ => hb.1 hblank, fun _ => ⟨_, rfl⟩⟩
  · next hcode =>
    refine ⟨fun hc => (hsome hc).elim, fun _ => rfl, fun _ => ⟨?_, fun hc => ?_⟩⟩
    · rintro ⟨_, ⟨⟩⟩
    · exact absurd (hb.2 hc) hcode

theorem CutLines.recorded (openBlock : Option Nat)
    (h : CutLines openBlock.isSome raws cuts stillOpen) (line : Nat) :
    List.Forall₂ LineCut.RecordedAs cuts (SourceLine.ofLines line openBlock raws).1 ∧
      (SourceLine.ofLines line openBlock raws).2.isSome = stillOpen := by
  induction raws generalizing line openBlock cuts with
  | nil =>
    cases h
    exact ⟨.nil, rfl⟩
  | cons raw raws ih =>
    cases h with
    | cons hl hr =>
      rw [← (hl.parts line).stillOpen] at hr
      obtain ⟨hrecords, hopen⟩ := ih _ hr (line + 1)
      exact ⟨.cons (hl.recorded line) hrecords, hopen⟩

theorem LineCut.RecordedAs.tokens {record : SourceLine} (h : RecordedAs cut record)
    (hr : record.tokens line = .ok ts) :
    ∃ code, ts = code ++ cut.commentTokens line ∧ ∀ t ∈ code, ¬ t.isComment := by
  rw [SourceLine.tokens] at hr
  split at hr
  · cases hr
  next code hc =>
  cases hr
  refine ⟨code, congrArg (code ++ ·) ?_, fun t ht => ?_⟩
  · rw [commentTokens]
    split
    · next hn =>
      obtain ⟨text, rfl⟩ := h.code hn
      rfl
    · next hn =>
      rw [h.text hn]
      rfl
  · rw [← withoutComments_codeTokens? hc] at ht
    simpa using (List.mem_filter.1 ht).2

theorem onLine_of_forall (h : ∀ t ∈ ts, t.line = line) : onLine line ts = ts :=
  List.filter_eq_self.2 fun t ht => decide_eq_true (h t ht)

theorem onLine_eq_nil (h : ∀ t ∈ ts, t.line ≠ line) : onLine line ts = [] :=
  List.filter_eq_nil_iff.2 fun t ht => by simpa using h t ht

theorem tokens_onLine {records : List SourceLine} {index : Nat}
    (h : tokensFrom line records = .ok ts)
    (hr : records[index]? = some record) :
    record.tokens (line + index) = .ok (onLine (line + index) ts) := by
  induction records generalizing line ts index with
  | nil => cases hr
  | cons first records ih =>
    rw [tokensFrom] at h
    split at h
    · cases h
    next tokens hf =>
    split at h
    · cases h
    next more hm =>
    cases h
    have hline := SourceLine.line_of_tokens hf
    have hlater := (tokensFrom_lines hm).2
    rw [onLine, List.filter_append]
    change _ = Except.ok (onLine _ tokens ++ onLine _ more)
    cases index with
    | zero =>
      cases hr
      have hnone : onLine line more = [] :=
        onLine_eq_nil fun t ht => Nat.ne_of_gt (hlater t ht).1
      rw [Nat.add_zero, hf, onLine_of_forall hline, hnone, List.append_nil]
    | succ index =>
      have hl : line + (index + 1) = line + 1 + index := by omega
      have hnone : onLine (line + (index + 1)) tokens = [] :=
        onLine_eq_nil fun t ht => by
          rw [hline t ht]
          omega
      rw [hnone, hl, ih hm hr, List.nil_append]

theorem cutLines_of_sourceLines (h : sourceLines text = .ok records) :
    ∃ cuts, CutLines false (Text.lines text.toList) cuts false := by
  obtain ⟨cuts, stillOpen, hc⟩ := exists_cutLines false (Text.lines text.toList)
  have ho : false = stillOpen := by
    rw [← (CutLines.recorded none hc 1).2, ofLines_of_sourceLines h]
    rfl
  exact ⟨cuts, ho ▸ hc⟩

/-- Comment text is conserved line by line: every line of a text whose lines can be taken apart
has a cut, its record keeps the text of the pieces of that cut, and among the tokens of the line
one that holds this text comes last if there is a piece, and no other is a comment. -/
theorem comment_text_conserved (h : sourceLines text = .ok records) :
    (∃ cuts, CutLines false (Text.lines text.toList) cuts false) ∧
      ∀ cuts stillOpen, CutLines false (Text.lines text.toList) cuts stillOpen →
        List.Forall₂ LineCut.RecordedAs cuts records ∧
          ∀ tokens, tokenize records = .ok tokens → ∀ index cut, cuts[index]? = some cut →
            ∃ code, onLine (index + 1) tokens = code ++ cut.commentTokens (index + 1) ∧
              ∀ t ∈ code, ¬ t.isComment := by
  refine ⟨cutLines_of_sourceLines h, fun cuts stillOpen hc => ?_⟩
  have hrecorded := (CutLines.recorded none hc 1).1
  rw [ofLines_of_sourceLines h] at hrecorded
  refine ⟨hrecorded, fun tokens ht index cut hcut => ?_⟩
  obtain ⟨hi, rfl⟩ := List.getElem?_eq_some_iff.1 hcut
  have hi' : index < records.length := hrecorded.length_eq ▸ hi
  rw [Nat.add_comm index 1]
  exact (hrecorded.get hi hi').tokens (tokens_onLine ht (List.getElem?_eq_getElem hi'))

/-- Three lines: the first opens two block comments and closes one, the second is blank inside the
other, and the last closes it before a line comment. -/
def mixedText : String := "a/**/\"/*\"/*b \n \n */c//d"

def mixedRecords : List SourceLine :=
  [.codeWithComment "a \"/*\"" "/**/ /*b", .comment "", .codeWithComment "c" "*/ //d"]

def mixedCuts : List LineCut :=
  [⟨[['/', '*', '*', '/'], ['/', '*', 'b']], ['a', '"', '/', '*', '"']⟩, ⟨[[]], []⟩,
    ⟨[['*', '/'], ['/', '/', 'd']], ['c']⟩]

theorem mixedText_cut : CutLines false (Text.lines mixedText.toList) mixedCuts false := by
  have hopened : CutCode ['"', '/', '*', '"', '/', '*', 'b', ' ']
      ⟨[['/', '*', 'b']], ['"', '/', '*', '"']⟩ true :=
    @CutCode.unclosed ['"', '/', '*', '"'] ['b', ' '] (by decide) (by decide)
  have hfirst := @CutCode.closed ['a'] [] _ _ _ (by decide) (by decide) hopened
  have hlast := @CutCode.lineComment ['c'] ['d'] (by decide)
  have hclosed := @CutLine.closing [' '] _ _ _ (by decide) hlast
  exact .cons (.code hfirst) (.cons (.inside (by decide)) (.cons hclosed .nil))

def mixedTokens : List Token :=
  [⟨.identifier "a", 1⟩, ⟨.string "/*", 1⟩, ⟨.comment "/**/ /*b", 1⟩, ⟨.comment "", 2⟩,
    ⟨.identifier "c", 3⟩, ⟨.comment "*/ //d", 3⟩]

theorem tokenize_mixedRecords : tokenize mixedRecords = .ok mixedTokens := by
  have hfirst : codeTokens? "a \"/*\"" 1 = some [⟨.identifier "a", 1⟩, ⟨.string "/*", 1⟩] :=
    (codeTokens?_ofLine 1 none "a/**/\"/*\"/*b ".toList).trans rfl
  have hblank : codeTokens? "" 2 = some [] := (codeTokens?_ofLine 2 (some 1) [' ']).trans rfl
  have hlast : codeTokens? "c" 3 = some [⟨.identifier "c", 3⟩] :=
    (codeTokens?_ofLine 3 (some 1) "*/c//d".toList).trans rfl
  simp only [tokenize, mixedRecords, tokensFrom, SourceLine.tokens, SourceLine.codePart, hfirst,
    hblank, hlast]
  rfl

theorem mixedText_comments :
    sourceLines mixedText = .ok mixedRecords ∧ tokenize mixedRecords = .ok mixedTokens ∧
      List.Forall₂ LineCut.RecordedAs mixedCuts mixedRecords ∧
      ∃ code, onLine 3 mixedTokens = code ++ [⟨.comment "*/ //d", 3⟩] ∧
        ∀ t ∈ code, ¬ t.isComment := by
  have h : sourceLines mixedText = .ok mixedRecords := by rfl
  obtain ⟨hrecorded, htokens⟩ := (comment_text_conserved h).2 mixedCuts false mixedText_cut
  have ht := tokenize_mixedRecords
  exact ⟨h, ht, hrecorded, htokens mixedTokens ht 2 _ rfl⟩

end Jack
