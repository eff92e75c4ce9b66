import Jack.Proofs.Segmentation

namespace Jack

namespace Text

theorem isWord_of_isDigit (h : c.isDigit) : isWord c := by
  have ha : c.toNat < 0x80 := by
    have hc : c.toNat ≤ 57 :=
      UInt32.le_iff_toNat_le.1 (of_decide_eq_true (Bool.and_eq_true_iff.1 h).2)
    omega
  rw [isWord, if_pos ha, Char.isAlphanum, h, Bool.or_true, Bool.true_or]

theorem digits?_toDigits (n : Nat) : digits? (Nat.toDigits 10 n) = some n := by
  have hn : (Nat.toDigits 10 n).isEmpty = false := by simp [Nat.toDigits_ne_nil]
  have hd : (Nat.toDigits 10 n).all Char.isDigit :=
    List.all_eq_true.2 fun c => Nat.isDigit_of_mem_toDigits (by decide) (by decide)
  rw [digits?, if_pos (by rw [hn, hd]; rfl), Nat.ofDigitChars_ten_toDigits]

theorem numeral?_of_digits (h : ∀ c ∈ cs, c.isDigit) (hd : digits? cs = some n)
    (hn : n < UInt64.size) : numeral? cs = some (UInt64.ofNat n) := by
  cases cs with
  | nil => simp [numeral?, hd, hn]
  | cons c cs =>
    have hc : c ≠ '+' := by
      rintro rfl
      exact absurd (h '+' (List.mem_cons_self ..)) (by decide)
    simp [numeral?, hc, hd, hn]

theorem numeral?_repr (value : UInt64) : numeral? value.toNat.repr.toList = some value := by
  have hd (c : Char) (hc : c ∈ Nat.toDigits 10 value.toNat) : c.isDigit :=
    Nat.isDigit_of_mem_toDigits (by decide) (by decide) hc
  rw [Nat.toList_repr,
    numeral?_of_digits hd (digits?_toDigits _) (UInt64.toNat_lt value), UInt64.ofNat_toNat]

end Text

theorem Keyword.not_isDigit (word : Keyword) : ∀ c ∈ word.spelling.toList, ¬ c.isDigit := by
  have h : word.spelling.toList.all fun c => !c.isDigit := by
    cases word <;> rfl
  simpa using h

theorem not_isDigit_of_symbol (h : symbol? cs = some c) : cs = [c] ∧ ¬ c.isDigit := by
  have hs : symbolChars.toList.all fun d => !d.isDigit := rfl
  have hall : ∀ d ∈ symbolChars.toList, ¬ d.isDigit := by simpa using hs
  unfold symbol? at h
  split at h
  · split at h
    · next hm =>
      cases h
      exact ⟨rfl, hall _ (List.contains_iff_mem.1 hm)⟩
    · cases h
  · cases h

theorem symbol?_quoted (body : List Char) : symbol? (quoted body) = none := by
  cases body <;> rfl

theorem quoted_ne_spelling (body : List Char) (word : Keyword) :
    String.ofList (quoted body) ≠ word.spelling := by
  intro h
  have hl := congrArg String.toList h
  rw [String.toList_ofList] at hl
  cases word <;> cases hl

namespace Lexeme

theorem ofSegment_quoted (body : List Char) :
    ofSegment (String.ofList (quoted body)) = .string (String.ofList body) := by
  have hk : Keyword.ofSpelling? (String.ofList (quoted body)) = none :=
    List.find?_eq_none.2 fun word _ => by simpa using (quoted_ne_spelling body word).symm
  simp only [ofSegment, hk, String.toList_ofList, symbol?_quoted]
  simp [quoted, literalBody]

theorem ofSegment_ne_comment (segment : String) (text : String) :
    ofSegment segment ≠ .comment text := by
  intro h
  rw [ofSegment] at h
  split at h
  · cases h
  split at h
  · cases h
  split at h
  · cases h
  split at h <;> cases h

/-- A segment with a digit is no reserved word and no symbol. -/
theorem ofSegment_of_digit {segment : String} (hm : c ∈ segment.toList) (hd : c.isDigit)
    (hq : segment.toList.head? ≠ some '"') :
    ofSegment segment =
      match Text.numeral? segment.toList with
      | some value => .integer value
      | none => .identifier segment := by
  rw [ofSegment]
  split
  · next word hk =>
    rw [← Keyword.spelling_of_ofSpelling? hk] at hm
    exact absurd hd (word.not_isDigit c hm)
  split
  · next d hs =>
    obtain ⟨he, hn⟩ := not_isDigit_of_symbol hs
    rw [he, List.mem_singleton] at hm
    rw [hm] at hd
    exact absurd hd hn
  split
  · next hs => exact absurd (congrArg List.head? hs) hq
  · rfl

theorem ofSegment_numeral (value : UInt64) :
    ofSegment value.toNat.repr = .integer value := by
  have hd : ∀ c ∈ value.toNat.repr.toList, c.isDigit := by
    rw [Nat.toList_repr]
    exact fun c => Nat.isDigit_of_mem_toDigits (by decide) (by decide)
  have hn : value.toNat.repr.toList ≠ [] := by
    rw [Nat.toList_repr]
    exact Nat.toDigits_ne_nil
  obtain ⟨c, hc⟩ := List.exists_mem_of_ne_nil _ hn
  have hq : value.toNat.repr.toList.head? ≠ some '"' := by
    intro hq
    exact absurd (hd _ (List.mem_of_head? hq)) (by decide)
  rw [ofSegment_of_digit hc (hd c hc) hq, Text.numeral?_repr]

/-- The text of a lexeme is its segment, except for numbers and string literals. -/
theorem text_ofSegment {segment : String} (h : segment.toList.head? ≠ some '"') :
    (ofSegment segment).text = segment ∨ ∃ value, ofSegment segment = .integer value := by
  rw [ofSegment]
  split
  · next word hk => exact .inl (Keyword.spelling_of_ofSpelling? hk)
  split
  · next c hs =>
    left
    rw [← String.toList_inj, (not_isDigit_of_symbol hs).1, text, Char.toString,
      String.toList_singleton]
  split
  · next rest hq => exact absurd (by rw [hq]; rfl) h
  split
  · next value hv => exact .inr ⟨value, rfl⟩
  · exact .inl rfl

theorem ofSegment_text {segment : String} (h : segment.toList.head? ≠ some '"') :
    ofSegment (ofSegment segment).text = ofSegment segment := by
  obtain ht | ⟨value, hv⟩ := text_ofSegment h
  · rw [ht]
  · rw [hv]
    exact ofSegment_numeral value

end Lexeme

end Jack
