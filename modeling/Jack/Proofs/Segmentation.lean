import Jack.TokenStream
import Jack.Proofs.Fronts

namespace Jack

namespace Text

theorem mem_of_inRanges (h : inRanges c ranges) :
    ∃ range ∈ ranges, range.1 ≤ c.toNat ∧ c.toNat ≤ range.2 := by
  induction ranges with
  | nil => cases h
  | cons range ranges ih =>
    obtain ⟨first, last⟩ := range
    simp only [inRanges_cons, Bool.and_eq_true, Bool.or_eq_true, decide_eq_true_eq] at h
    obtain ⟨hf, hl | hr⟩ := h
    · exact ⟨_, List.mem_cons_self .., hf, hl⟩
    · obtain ⟨range, hm, hb⟩ := ih hr
      exact ⟨range, List.mem_cons_of_mem _ hm, hb⟩

theorem not_isWord_of_isBlank (h : isBlank c) : ¬ isWord c := by
  have hall : ∀ range ∈ blankRanges,
      ∀ n ∈ List.range' range.1 (range.2 + 1 - range.1), isWord (Char.ofNat n) = false := by
    decide +kernel
  obtain ⟨range, hm, hf, hl⟩ := mem_of_inRanges h
  have hw := hall range hm c.toNat (List.mem_range'_1.2 (by omega))
  rw [Char.ofNat_toNat] at hw
  simp [hw]

theorem isBlank_space : isBlank ' ' := by decide

theorem isBlank_lineFeed : isBlank '\n' := by decide

theorem isBlank_carriageReturn : isBlank '\r' := by decide

theorem not_isBlank_quote : ¬ isBlank '"' := by decide

theorem not_isWord_quote : ¬ isWord '"' := by decide

end Text

def wordSegments (word : List Char) : List (List Char) := if word.isEmpty then [] else [word]

def quoted (body : List Char) : List Char := '"' :: (body ++ ['"'])

theorem closeQuote?_cons_of_ne (h : c ≠ '"') (cs : List Char) :
    closeQuote? (c :: cs) = (closeQuote? cs).map fun (body, after) => (c :: body, after) := by
  rw [closeQuote?]
  exact fun hc => h hc

theorem closeQuote?_append (h : '"' ∉ tail) (cs : List Char) :
    closeQuote? (cs ++ tail) = (closeQuote? cs).map fun (body, after) => (body, after ++ tail) := by
  induction cs with
  | nil =>
    induction tail with
    | nil => rfl
    | cons c tail ih =>
      rw [List.mem_cons, not_or] at h
      rw [List.nil_append, closeQuote?_cons_of_ne (Ne.symm h.1)]
      rw [List.nil_append] at ih
      rw [ih h.2]
      rfl
  | cons c cs ih =>
    by_cases hc : c = '"'
    · subst c
      rfl
    · rw [List.cons_append, closeQuote?_cons_of_ne hc, closeQuote?_cons_of_ne hc, ih,
        Option.map_map, Option.map_map]
      rfl

@[simp] theorem segments?_nil : segments? [] = some [] := by rw [segments?]

theorem segments?_quote (cs : List Char) :
    segments? ('"' :: cs) =
      (closeQuote? cs).bind fun (body, rest) => (segments? rest).map (quoted body :: ·) := by
  rw [segments?, if_pos rfl]
  split
  · next h => rw [h, Option.bind_none]
  · next body rest h =>
    rw [h, Option.bind_some]
    rfl

theorem ne_quote_of_isBlank (h : Text.isBlank c) : c ≠ '"' :=
  fun hc => Text.not_isBlank_quote (hc ▸ h)

theorem ne_quote_of_isWord (h : Text.isWord c) : c ≠ '"' :=
  fun hc => Text.not_isWord_quote (hc ▸ h)

theorem segments?_blank (h : Text.isBlank c) (cs : List Char) :
    segments? (c :: cs) = segments? cs := by
  rw [segments?, if_neg (ne_quote_of_isBlank h), if_pos h]

theorem segments?_single (hq : c ≠ '"') (hb : ¬ Text.isBlank c) (hw : ¬ Text.isWord c)
    (cs : List Char) : segments? (c :: cs) = (segments? cs).map ([c] :: ·) := by
  rw [segments?, if_neg hq, if_neg hb, if_neg hw]

theorem segments?_word (hw : ∀ c ∈ word, Text.isWord c)
    (hr : ∀ c, rest.head? = some c → ¬ Text.isWord c) :
    segments? (word ++ rest) = (segments? rest).map (wordSegments word ++ ·) := by
  cases word with
  | nil => exact Option.map_id'.symm
  | cons c word =>
    have hc : Text.isWord c := hw c (List.mem_cons_self ..)
    have hws : ∀ d ∈ word, Text.isWord d := fun d hd => hw d (List.mem_cons_of_mem _ hd)
    have hb : ¬ Text.isBlank c := fun hb => Text.not_isWord_of_isBlank hb hc
    rw [List.cons_append, segments?, if_neg (ne_quote_of_isWord hc), if_neg hb, if_pos hc,
      takeWhile_append_of_head hws hr, dropWhile_append_of_head hws hr]
    rfl

theorem segments?_blanks (h : ∀ c ∈ blanks, Text.isBlank c) : segments? blanks = some [] := by
  induction blanks with
  | nil => exact segments?_nil
  | cons c blanks ih =>
    rw [segments?_blank (h c (List.mem_cons_self ..)),
      ih fun d hd => h d (List.mem_cons_of_mem _ hd)]

/-- Blanks at the end of a piece of code make no difference, also behind a quote left open. -/
theorem segments?_append_blanks (h : ∀ c ∈ blanks, Text.isBlank c) (cs : List Char) :
    segments? (cs ++ blanks) = segments? cs := by
  have hq : '"' ∉ blanks := fun hm => Text.not_isBlank_quote (h _ hm)
  have hw : ∀ c, blanks.head? = some c → ¬ Text.isWord c :=
    fun c hc => Text.not_isWord_of_isBlank (h c (List.mem_of_head? hc))
  fun_induction segments? cs with
  | case1 => exact segments?_blanks h
  | case2 cs hn => rw [List.cons_append, segments?_quote, closeQuote?_append hq, hn]; rfl
  | case3 cs body rest hs ih =>
    rw [List.cons_append, segments?_quote, closeQuote?_append hq, hs, Option.map_some,
      Option.bind_some]
    dsimp only
    rw [ih]
    rfl
  | case4 c cs _ hb ih => rw [List.cons_append, segments?_blank hb, ih]
  | case5 c cs _ _ hc ih =>
    have he : c :: cs ++ blanks =
        (c :: cs.takeWhile Text.isWord) ++ (cs.dropWhile Text.isWord ++ blanks) := by
      rw [List.cons_append, List.cons_append, ← List.append_assoc, List.takeWhile_append_dropWhile]
    have hword : ∀ d ∈ c :: cs.takeWhile Text.isWord, Text.isWord d :=
      List.forall_mem_cons.2 ⟨hc, fun d => List.mem_takeWhile_imp⟩
    have hrest : ∀ d, (cs.dropWhile Text.isWord ++ blanks).head? = some d → ¬ Text.isWord d := by
      intro d hd
      cases hdrop : cs.dropWhile Text.isWord with
      | nil =>
        rw [hdrop] at hd
        exact hw d hd
      | cons e rest =>
        have hn := List.head?_dropWhile_not Text.isWord cs
        rw [hdrop] at hd hn
        cases hd
        simpa using hn
    rw [he, segments?_word hword hrest, ih]
    rfl
  | case6 c cs hc hb hw ih => rw [List.cons_append, segments?_single hc hb hw, ih]

theorem segments?_trimEnd (cs : List Char) : segments? (Text.trimEnd cs) = segments? cs := by
  obtain ⟨blanks, hb, he⟩ := Text.trimEnd_append_blanks cs
  rw [← segments?_append_blanks hb, he]

end Jack
