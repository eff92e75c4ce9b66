import Jack.Text.Blank
import Jack.Text.Decimal
import Jack.Text.Word
import Jack.Token

namespace Jack

def symbolChars : String := "\x7b\x7d()[].,;+-*/&|<>=~"

def closeQuote? : List Char → Option (List Char × List Char)
  | [] => none
  | '"' :: rest => some ([], rest)
  | c :: rest => (closeQuote? rest).map fun (body, after) => (c :: body, after)

theorem closeQuote?_length {cs body rest : List Char} (h : closeQuote? cs = some (body, rest)) :
    rest.length < cs.length := by
  fun_induction closeQuote? cs generalizing body with
  | case1 => simp at h
  | case2 after =>
    simp only [Option.some.injEq, Prod.mk.injEq] at h
    simp [h.2]
  | case3 c after _ ih =>
    obtain ⟨⟨inner, left⟩, hp, he⟩ := Option.map_eq_some_iff.1 h
    simp only [Prod.mk.injEq] at he
    have := ih (he.2 ▸ hp)
    simp only [List.length_cons]
    omega

/-- The segments of a piece of code: whole string literals, maximal runs of word characters, and
single other characters; blanks between them are dropped. A quote left open has no segments. -/
def segments? : List Char → Option (List (List Char))
  | [] => some []
  | c :: cs =>
    if c = '"' then
      match _ : closeQuote? cs with
      | none => none
      | some (body, rest) => (segments? rest).map (('"' :: (body ++ ['"'])) :: ·)
    else if Text.isBlank c then segments? cs
    else if Text.isWord c then
      (segments? (cs.dropWhile Text.isWord)).map ((c :: cs.takeWhile Text.isWord) :: ·)
    else (segments? cs).map ([c] :: ·)
termination_by cs => cs.length
decreasing_by
  · exact Nat.lt_succ_of_lt (closeQuote?_length (by assumption))
  · exact Nat.lt_succ_self _
  · exact Nat.lt_succ_of_le (List.dropWhile_sublist _).length_le
  · exact Nat.lt_succ_self _

def symbol? : List Char → Option Char
  | [c] => if symbolChars.toList.contains c then some c else none
  | _ => none

/-- The body of a literal after its opening quote: one closing quote is dropped if it is there. -/
def literalBody (cs : List Char) : List Char :=
  if cs.getLast? = some '"' then cs.dropLast else cs

/-- The lexeme of a segment: a reserved word, a symbol, a string literal, a numeral of 64 bits,
and otherwise a name. -/
def Lexeme.ofSegment (segment : String) : Lexeme :=
  match Keyword.ofSpelling? segment with
  | some word => .keyword word
  | none =>
    match symbol? segment.toList with
    | some c => .symbol c
    | none =>
      match segment.toList with
      | '"' :: rest => .string (String.ofList (literalBody rest))
      | cs =>
        match Text.numeral? cs with
        | some value => .integer value
        | none => .identifier segment

def codeTokens? (code : String) (line : Nat) : Option (List Token) :=
  (segments? code.toList).map fun segments =>
    segments.map fun segment => ⟨Lexeme.ofSegment (String.ofList segment), line⟩

end Jack
