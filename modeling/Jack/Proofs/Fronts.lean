import Mathlib.Data.List.TakeWhile

namespace Jack

variable {p : α → Bool} {front front' rest rest' : List α}

theorem takeWhile_append_of_head (hf : ∀ a ∈ front, p a)
    (hr : ∀ a, rest.head? = some a → ¬ p a) : (front ++ rest).takeWhile p = front := by
  rw [List.takeWhile_append_of_pos hf]
  cases rest with
  | nil => exact List.append_nil front
  | cons a rest => rw [List.takeWhile_cons_of_neg (hr a rfl), List.append_nil]

theorem dropWhile_append_of_head (hf : ∀ a ∈ front, p a)
    (hr : ∀ a, rest.head? = some a → ¬ p a) : (front ++ rest).dropWhile p = rest := by
  rw [List.dropWhile_append_of_pos hf]
  cases rest with
  | nil => rfl
  | cons a rest => exact List.dropWhile_cons_of_neg (hr a rfl)

theorem append_inj_of_head (hf : ∀ a ∈ front, p a) (hf' : ∀ a ∈ front', p a)
    (hr : ∀ a, rest.head? = some a → ¬ p a) (hr' : ∀ a, rest'.head? = some a → ¬ p a)
    (h : front ++ rest = front' ++ rest') : front = front' ∧ rest = rest' := by
  have hfront : front = front' := by
    rw [← takeWhile_append_of_head hf hr, h, takeWhile_append_of_head hf' hr']
  subst front'
  exact ⟨rfl, List.append_cancel_left h⟩

/-- A list is cut in only one way at the first place of a mark. -/
theorem append_inj_of_mark {mark : α} (hf : mark ∉ front) (hf' : mark ∉ front')
    (h : front ++ mark :: rest = front' ++ mark :: rest') : front = front' ∧ rest = rest' := by
  classical
  have hne {front : List α} (hf : mark ∉ front) : ∀ a ∈ front, decide (a ≠ mark) = true :=
    fun a ha => decide_eq_true fun he => hf (he ▸ ha)
  have hhead {rest : List α} :
      ∀ a, (mark :: rest).head? = some a → ¬ decide (a ≠ mark) = true :=
    fun a ha hd => of_decide_eq_true hd (Option.some.inj ha).symm
  obtain ⟨hfront, hrest⟩ := append_inj_of_head (hne hf) (hne hf') hhead hhead h
  exact ⟨hfront, (List.cons.inj hrest).2⟩

end Jack
