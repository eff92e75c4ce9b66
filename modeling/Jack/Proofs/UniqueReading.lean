import Jack.Proofs.Recognition

namespace Jack

namespace Parser

theorem Reads.unique {p : Parser α} (h : Reads p input a rest) (h' : Reads p input a' rest') :
    a = a' ∧ rest = rest' := by
  obtain ⟨trace, ht⟩ := h #[]
  obtain ⟨trace', ht'⟩ := h' #[]
  rw [ht] at ht'
  cases ht'
  exact ⟨rfl, rfl⟩

/-- Before a closer there is one run of items. -/
theorem items_unique (hc : Choice.ofSymbol closer = .closer) (hi : Items word trees (some close))
    (hi' : Items word' trees' (some close')) (h : close.isSymbol closer)
    (h' : close'.isSymbol closer) (he : word ++ close :: rest = word' ++ close' :: rest') :
    word = word' ∧ trees = trees' := by
  have hr := items_complete _ closer hc word trees close rest hi h le_rfl
  have hr' := items_complete _ closer hc word' trees' close' rest' hi' h'
    (congrArg List.length he).ge
  rw [← he] at hr'
  obtain ⟨ht, hr⟩ := hr.unique hr'
  rw [hr] at he
  exact ⟨List.append_cancel_right he, ht⟩

theorem item_unique (hi : Item (head :: word) trees (significant? rest))
    (hi' : Item (head :: word') trees' (significant? rest')) (he : word ++ rest = word' ++ rest') :
    word = word' ∧ trees = trees' := by
  have hr := item_complete (fun closer hc => items_complete _ closer hc) hi le_rfl
  have hr' := item_complete (fun closer hc => items_complete _ closer hc) hi'
    (congrArg List.length he).ge
  rw [← he] at hr'
  obtain ⟨ht, hr⟩ := hr.unique hr'
  rw [hr] at he
  exact ⟨List.append_cancel_right he, Option.some.inj ht⟩

end Parser

theorem Spaced.append_inj (h : Spaced expected place) (h' : Spaced expected' place')
    (he : place ++ rest = place' ++ rest') : rest = rest' := by
  have hd {expected : Expected} {place : List Token} (h : Spaced expected place)
      (rest : List Token) : ∃ t, (place ++ rest).dropWhile Token.isComment = t :: rest := by
    cases h with
    | @intro gap t hg ht =>
      rw [List.append_assoc, List.dropWhile_append_of_pos (gap_iff.1 hg)]
      exact ⟨t, List.dropWhile_cons_of_neg ht.not_isComment⟩
  obtain ⟨t, ht⟩ := hd h rest
  obtain ⟨t', ht'⟩ := hd h' rest'
  rw [he, ht'] at ht
  exact (List.cons.inj ht).2.symm

end Jack
