import Jack.Proofs.Classification
import Mathlib.Algebra.Group.Nat.Defs

namespace Jack

namespace Text

/-- The number that decimal digits write, the first of which counts most. -/
def decimalValue : List Char → Nat
  | [] => 0
  | c :: cs => (c.toNat - '0'.toNat) * 10 ^ cs.length + decimalValue cs

/-- A numeral with its digits: at least one ASCII digit, after a plus sign or without one. -/
structure IsNumeral (cs digits : List Char) : Prop where
  nonempty : digits ≠ []
  ascii : ∀ c ∈ digits, '0' ≤ c ∧ c ≤ '9'
  sign : cs = digits ∨ cs = '+' :: digits

theorem isDigit_iff : c.isDigit ↔ '0' ≤ c ∧ c ≤ '9' := by
  rw [Char.isDigit, Bool.and_eq_true, decide_eq_true_iff, decide_eq_true_iff]
  rfl

theorem ofDigitChars_eq (cs : List Char) (front : Nat) :
    Nat.ofDigitChars 10 cs front = front * 10 ^ cs.length + decimalValue cs := by
  induction cs generalizing front with
  | nil => simp [decimalValue]
  | cons c cs ih =>
    rw [Nat.ofDigitChars_cons, ih, decimalValue, List.length_cons, Nat.pow_succ', Nat.add_mul,
      Nat.mul_comm 10 front, Nat.mul_assoc, Nat.add_assoc]

theorem digits?_eq_some_iff :
    digits? cs = some n ↔
      cs ≠ [] ∧ (∀ c ∈ cs, '0' ≤ c ∧ c ≤ '9') ∧ decimalValue cs = n := by
  have hv : Nat.ofDigitChars 10 cs 0 = decimalValue cs := by
    rw [ofDigitChars_eq, Nat.zero_mul, Nat.zero_add]
  rw [digits?, hv]
  simp [← isDigit_iff, and_assoc]

def unsigned : List Char → List Char
  | '+' :: rest => rest
  | cs => cs

theorem eq_unsigned (cs : List Char) : cs = unsigned cs ∨ cs = '+' :: unsigned cs := by
  fun_cases unsigned cs with
  | case1 => exact .inr rfl
  | case2 => exact .inl rfl

theorem numeral?_eq (cs : List Char) :
    numeral? cs = (digits? (unsigned cs)).bind fun n =>
      if n < UInt64.size then some (UInt64.ofNat n) else none := by
  fun_cases unsigned cs with
  | case1 rest =>
    simp only [numeral?]
    cases digits? rest <;> rfl
  | case2 =>
    simp only [numeral?]
    cases digits? cs <;> rfl

theorem isNumeral_iff :
    IsNumeral cs digits ↔ unsigned cs = digits ∧ digits? digits = some (decimalValue digits) := by
  constructor
  · intro h
    refine ⟨?_, digits?_eq_some_iff.2 ⟨h.nonempty, h.ascii, rfl⟩⟩
    rcases h.sign with rfl | rfl
    · rw [unsigned.eq_def]
      split
      · exact absurd (h.ascii _ (List.mem_cons_self ..)) (by decide)
      · rfl
    · rfl
  · rintro ⟨rfl, h⟩
    obtain ⟨hn, hd, -⟩ := digits?_eq_some_iff.1 h
    exact ⟨hn, hd, eq_unsigned cs⟩

theorem IsNumeral.numeral? (h : IsNumeral cs digits) :
    numeral? cs = if decimalValue digits < UInt64.size
      then some (UInt64.ofNat (decimalValue digits)) else none := by
  obtain ⟨rfl, hd⟩ := isNumeral_iff.1 h
  rw [numeral?_eq, hd, Option.bind_some]

theorem numeral?_eq_some_iff :
    numeral? cs = some value ↔
      ∃ digits, IsNumeral cs digits ∧ decimalValue digits = value.toNat := by
  constructor
  · intro h
    rw [numeral?_eq, Option.bind_eq_some_iff] at h
    obtain ⟨n, hd, h⟩ := h
    split at h
    · next hn =>
      cases h
      obtain ⟨_, _, hv⟩ := digits?_eq_some_iff.1 hd
      rw [← hv] at hd
      refine ⟨unsigned cs, isNumeral_iff.2 ⟨rfl, hd⟩, ?_⟩
      rw [hv]
      exact (UInt64.toNat_ofNat_of_lt' hn).symm
    · cases h
  · rintro ⟨digits, hn, hv⟩
    rw [hn.numeral?, hv, if_pos value.toNat_lt, UInt64.ofNat_toNat]

end Text

namespace Lexeme

open Text

theorem ofSegment_of_isNumeral {segment : String} (h : IsNumeral segment.toList digits) :
    ofSegment segment =
      if decimalValue digits < UInt64.size then .integer (UInt64.ofNat (decimalValue digits))
      else .identifier segment := by
  obtain ⟨c, hc⟩ := List.exists_mem_of_ne_nil _ h.nonempty
  have hm : c ∈ segment.toList := by
    rcases h.sign with hs | hs <;> simp [hs, hc]
  have hq : segment.toList.head? ≠ some '"' := by
    intro hq
    rcases h.sign with hs | hs
    · rw [hs] at hq
      exact absurd (h.ascii _ (List.mem_of_head? hq)) (by decide)
    · rw [hs] at hq
      cases hq
  rw [ofSegment_of_digit hm (isDigit_iff.2 (h.ascii c hc)) hq, h.numeral?]
  by_cases hv : decimalValue digits < UInt64.size
  · rw [if_pos hv, if_pos hv]
  · rw [if_neg hv, if_neg hv]

theorem numeral?_of_ofSegment {segment : String} (h : ofSegment segment = .integer value) :
    numeral? segment.toList = some value := by
  rw [ofSegment] at h
  split at h
  · cases h
  split at h
  · cases h
  split at h
  · cases h
  split at h
  · next hv =>
    cases h
    exact hv
  · cases h

end Lexeme

/-- A segment is read as a number exactly when it is a numeral whose value fits in 64 bits; a larger
one is a name with the same text. What a segment is read as is read again from its text, unless the
segment starts with a quote. -/
theorem classification_exact_and_stable (segment : String) (line : Nat) :
    let token : Token := ⟨Lexeme.ofSegment segment, line⟩
    (∀ n, (∃ value, token.lexeme = .integer value ∧ value.toNat = n) ↔
      ∃ digits, Text.IsNumeral segment.toList digits ∧ Text.decimalValue digits = n ∧
        n ≤ 2 ^ 64 - 1) ∧
    (∀ digits, Text.IsNumeral segment.toList digits → 2 ^ 64 - 1 < Text.decimalValue digits →
      token.lexeme = .identifier segment ∧ token.text = segment) ∧
    (segment.toList.head? ≠ some '"' → Lexeme.ofSegment token.text = token.lexeme) := by
  intro token
  refine ⟨fun n => ⟨?_, ?_⟩, ?_, Lexeme.ofSegment_text⟩
  · rintro ⟨value, hv, rfl⟩
    obtain ⟨digits, hd, hn⟩ := Text.numeral?_eq_some_iff.1 (Lexeme.numeral?_of_ofSegment hv)
    exact ⟨digits, hd, hn, Nat.le_pred_of_lt value.toNat_lt⟩
  · rintro ⟨digits, hd, rfl, hn⟩
    have hlt : Text.decimalValue digits < UInt64.size := Nat.lt_succ_of_le hn
    refine ⟨UInt64.ofNat (Text.decimalValue digits), ?_, UInt64.toNat_ofNat_of_lt' hlt⟩
    exact (Lexeme.ofSegment_of_isNumeral hd).trans (if_pos hlt)
  · intro digits hd hn
    have he : token.lexeme = .identifier segment :=
      (Lexeme.ofSegment_of_isNumeral hd).trans (if_neg (Nat.not_lt_of_ge hn))
    exact ⟨he, congrArg Lexeme.text he⟩

/-- The largest number with a sign and leading zeros, and the next one, which is a name. -/
theorem largest_number_classified :
    (∃ value, Lexeme.ofSegment "+0018446744073709551615" = .integer value ∧
      value.toNat = 18446744073709551615) ∧
    Lexeme.ofSegment (Lexeme.ofSegment "+0018446744073709551615").text =
      Lexeme.ofSegment "+0018446744073709551615" ∧
    Lexeme.ofSegment "18446744073709551616" = .identifier "18446744073709551616" := by
  have hn : Text.IsNumeral "+0018446744073709551615".toList "0018446744073709551615".toList :=
    Text.isNumeral_iff.2 ⟨rfl, rfl⟩
  have hn' : Text.IsNumeral "18446744073709551616".toList "18446744073709551616".toList :=
    Text.isNumeral_iff.2 ⟨rfl, rfl⟩
  obtain ⟨hi, -, hs⟩ := classification_exact_and_stable "+0018446744073709551615" 1
  obtain ⟨-, hl, -⟩ := classification_exact_and_stable "18446744073709551616" 2
  exact ⟨(hi _).2 ⟨_, hn, rfl, by decide⟩, hs (by decide), (hl _ hn' (by decide)).1⟩

end Jack
