import Jack.Tree
import Jack.Proofs.Fronts

namespace Jack

theorem toDigits_injective {n n' : Nat} (h : Nat.toDigits 10 n = Nat.toDigits 10 n') : n = n' := by
  rw [← @Nat.ofDigitChars_ten_toDigits n, h, Nat.ofDigitChars_ten_toDigits]

theorem Keyword.spelling_injective {word word' : Keyword} (h : word.spelling = word'.spelling) :
    word = word' := by
  have hs := congrArg Keyword.ofSpelling? h
  simpa using hs

theorem Construct.name_injective {construct construct' : Construct}
    (h : construct.name = construct'.name) : construct = construct' := by
  have hn := congrArg Construct.ofName? h
  simpa using hn

theorem Category.name_injective {category category' : Category}
    (h : category.name = category'.name) : category = category' := by
  revert h
  cases category <;> cases category' <;> decide

theorem Category.name_word (category : Category) :
    category.name.toList ≠ [] ∧ ' ' ∉ category.name.toList ∧ '\n' ∉ category.name.toList := by
  cases category <;> decide

theorem Construct.name_word (construct : Construct) :
    construct.name.toList ≠ [] ∧ ' ' ∉ construct.name.toList ∧
      '\n' ∉ construct.name.toList := by
  cases construct <;> decide

/-- A lexeme is known by its lexical class and its text. -/
theorem Lexeme.eq_of_text {lexeme lexeme' : Lexeme} (hc : lexeme.category = lexeme'.category)
    (ht : lexeme.text = lexeme'.text) : lexeme = lexeme' := by
  cases lexeme <;> cases lexeme' <;> cases hc
  case keyword word word' => exact congrArg _ (Keyword.spelling_injective ht)
  case symbol char char' => exact congrArg _ (String.singleton_inj.1 ht)
  case integer value value' =>
    have hd := congrArg String.toList ht
    simp only [text, Nat.toList_repr] at hd
    exact congrArg _ (UInt64.toNat_inj.1 (toDigits_injective hd))
  case identifier | string | comment => exact congrArg _ ht

end Jack
