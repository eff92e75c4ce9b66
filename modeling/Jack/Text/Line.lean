namespace Jack.Text

/-- The physical lines of a text. A line ends at a line feed, and a carriage return right before
that line feed belongs to the line end; a last line without a line feed is kept as it is. -/
def lines : List Char → List (List Char)
  | [] => []
  | '\n' :: rest => [] :: lines rest
  | '\r' :: '\n' :: rest => [] :: lines rest
  | c :: rest =>
    match lines rest with
    | [] => [[c]]
    | line :: more => (c :: line) :: more

end Jack.Text
