import Jack.Proofs.LineBoundary

namespace Jack

/-- Comment pieces are parts of their line, and a block comment goes on from where it is read. -/
theorem split_pieces (line : Nat) :
    (∀ inString cs, ∀ piece ∈ (splitCode line inString cs).comments, piece <:+: cs) ∧
    ∀ opened cs,
      (splitBlock line opened cs).1 <+: cs ∧
        ∀ piece ∈ (splitBlock line opened cs).2.comments, piece <:+: cs := by
  apply splitCode.mutual_induct line
  · intro inString piece hp
    rw [splitCode] at hp
    cases hp
  · intro rest piece hp
    obtain rfl := List.mem_singleton.1 hp
    exact List.infix_rfl
  · intro rest _ _ _ ih piece hp
    have hrest : rest <:+ '/' :: '*' :: rest := ⟨['/', '*'], rfl⟩
    obtain rfl | hp := List.mem_cons.1 hp
    · exact (List.prefix_append_right_inj ['/', '*']).2 ih.1 |>.isInfix
    · exact (ih.2 piece hp).trans hrest.isInfix
  · intro inString c rest hl hb ih piece hp
    rw [splitCode.eq_4 _ _ _ _ hl hb] at hp
    exact (ih piece hp).trans (List.suffix_cons c rest).isInfix
  · intro opened
    refine ⟨List.prefix_rfl, fun piece hp => ?_⟩
    cases hp
  · intro opened rest ih
    have hrest : rest <:+ '*' :: '/' :: rest := ⟨['*', '/'], rfl⟩
    exact ⟨⟨rest, rfl⟩, fun piece hp => (ih piece hp).trans hrest.isInfix⟩
  · intro opened c rest hc _ _ _ ih
    rw [splitBlock.eq_3 _ _ _ _ hc]
    exact ⟨(List.prefix_cons_inj c).2 ih.1,
      fun piece hp => (ih.2 piece hp).trans (List.suffix_cons c rest).isInfix⟩

theorem LineParts.infix_of_mem_comments {openBlock : Option Nat}
    (h : piece ∈ (ofLine line openBlock raw).comments) : piece <:+: raw := by
  obtain ⟨hcode, hblock⟩ := split_pieces line
  cases openBlock with
  | none => exact hcode false raw piece h
  | some opened =>
    obtain rfl | h := List.mem_cons.1 h
    · exact (hblock opened raw).1.isInfix
    · exact (hblock opened raw).2 piece h

theorem Text.trim_infix (cs : List Char) : trim cs <:+: cs := by
  obtain ⟨blanks, _, he⟩ := trimEnd_append_blanks cs
  have hstart : trim cs <:+ trimEnd cs := List.dropWhile_suffix _
  have hend : trimEnd cs <+: cs := ⟨blanks, he⟩
  exact hstart.isInfix.trans hend.isInfix

theorem mem_commentText (h : c ∈ commentText pieces) : c = ' ' ∨ ∃ piece ∈ pieces, c ∈ piece := by
  induction pieces with
  | nil => cases h
  | cons piece pieces ih =>
    have hpiece (hc : c ∈ Text.trim piece) : ∃ p ∈ piece :: pieces, c ∈ p :=
      ⟨piece, List.mem_cons_self .., (Text.trim_infix piece).subset hc⟩
    cases pieces with
    | nil =>
      rw [commentText, List.map_singleton, List.intercalate_singleton] at h
      exact .inr (hpiece h)
    | cons next pieces =>
      rw [commentText, List.map_cons, List.map_cons, List.intercalate_cons_cons,
        List.append_assoc] at h
      obtain h | h := List.mem_append.1 h
      · exact .inr (hpiece h)
      obtain h | h := List.mem_cons.1 h
      · exact .inl h
      obtain h | ⟨p, hp, hc⟩ := ih h
      · exact .inl h
      · exact .inr ⟨p, List.mem_cons_of_mem _ hp, hc⟩

def Token.OneLine (t : Token) : Prop := '\n' ∉ t.text.toList

theorem SourceLine.comment_oneLine (hr : '\n' ∉ raw)
    (h : text ∈ (ofParts (LineParts.ofLine line openBlock raw)).commentPart?) :
    '\n' ∉ text.toList := by
  have ht : text.toList = commentText (LineParts.ofLine line openBlock raw).comments := by
    rw [ofParts] at h
    split at h
    · cases h
    split at h
    · cases h
      exact String.toList_ofList
    · cases h
      exact String.toList_ofList
  rw [ht]
  intro hm
  obtain hm | ⟨piece, hp, hm⟩ := mem_commentText hm
  · cases hm
  · exact hr ((LineParts.infix_of_mem_comments hp).subset hm)

theorem SourceLine.comments_oneLine (h : ∀ raw ∈ raws, '\n' ∉ raw) (line : Nat)
    (openBlock : Option Nat) :
    ∀ record ∈ (ofLines line openBlock raws).1, ∀ text ∈ record.commentPart?,
      '\n' ∉ text.toList := by
  induction raws generalizing line openBlock with
  | nil => exact fun record hr => nomatch hr
  | cons raw raws ih =>
    rw [List.forall_mem_cons] at h
    intro record hr text ht
    obtain rfl | hr := List.mem_cons.1 hr
    · exact comment_oneLine h.1 ht
    · exact ih h.2 _ _ record hr text ht

theorem comment_of_tokensFrom (h : tokensFrom line records = .ok ts) (ht : t ∈ ts)
    (hc : t.isComment) : ∃ record ∈ records, t.text ∈ record.commentPart? := by
  induction records generalizing line ts with
  | nil =>
    cases h
    cases ht
  | cons record records ih =>
    rw [tokensFrom] at h
    split at h
    · cases h
    next tokens hr =>
    split at h
    · cases h
    next more hm =>
    cases h
    obtain ht | ht := List.mem_append.1 ht
    · rw [SourceLine.tokens] at hr
      split at hr
      · cases hr
      next code hcode =>
      cases hr
      obtain ht | ht := List.mem_append.1 ht
      · rw [← withoutComments_codeTokens? hcode] at ht
        simp [withoutComments, hc] at ht
      · obtain ⟨text, hx, rfl⟩ := List.mem_map.1 ht
        exact ⟨record, List.mem_cons_self .., Option.mem_toList.1 hx⟩
    · obtain ⟨record', hr', hx⟩ := ih hm ht
      exact ⟨record', List.mem_cons_of_mem _ hr', hx⟩

theorem Lexeme.text_subset_spelling (lexeme : Lexeme) :
    lexeme.text.toList ⊆ lexeme.spelling := by
  cases lexeme with
  | string body => exact fun c hc => List.mem_cons_of_mem _ (List.mem_append_left _ hc)
  | keyword | symbol | identifier | integer | comment => exact List.Subset.refl _

theorem Token.Readable.oneLine {t : Token} (h : t.Readable) : t.OneLine :=
  fun hm => h.segment.printed.oneLine (t.lexeme.text_subset_spelling hm)

/-- No text of a token that is made from a source text goes over a line end. -/
theorem tokenizeText_oneLine (h : (tokenizeText options text).result = .ok ts) :
    ∀ t ∈ ts, t.OneLine := by
  have hraws : ∀ raw ∈ Text.lines text.toList, '\n' ∉ raw :=
    fun raw => Text.not_mem_of_mem_lines
  obtain ⟨records, tokens, hs, ht, rfl⟩ := tokenizeText_eq_ok h
  have hscan : .ok (withoutComments tokens) = (scan text).outcome := by
    rw [← tokenize_eq_outcome, hs]
    exact (congrArg (Except.map withoutComments) ht).symm
  have hcomments : ∀ record ∈ records, ∀ x ∈ record.commentPart?, '\n' ∉ x.toList := by
    have hlines := SourceLine.comments_oneLine hraws 1 none
    rwa [ofLines_of_sourceLines hs] at hlines
  intro t hm
  have hm : t ∈ tokens := by
    rw [Options.select] at hm
    split at hm
    · exact hm
    · exact (List.mem_filter.1 hm).1
  by_cases hc : t.isComment
  · obtain ⟨record, hr, hx⟩ := comment_of_tokensFrom ht hm hc
    exact hcomments record hr _ hx
  · have hm' : t ∈ (scan text).tokens := by
      rw [Scan.outcome_eq_ok hscan.symm]
      exact List.mem_filter.2 ⟨hm, by simpa using hc⟩
    exact ((scanLines_tokens 1 none hraws).2 t hm').2.oneLine

end Jack
