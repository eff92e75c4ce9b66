namespace Jack.Text

def digits? (cs : List Char) : Option Nat :=
  if !cs.isEmpty && cs.all Char.isDigit then some (Nat.ofDigitChars 10 cs 0) else none

/-- A decimal numeral has an optional plus sign and fits in 64 bits. -/
def numeral? (cs : List Char) : Option UInt64 :=
  let run := match cs with
    | '+' :: rest => rest
    | _ => cs
  match digits? run with
  | some n => if n < UInt64.size then some (UInt64.ofNat n) else none
  | none => none

end Jack.Text
