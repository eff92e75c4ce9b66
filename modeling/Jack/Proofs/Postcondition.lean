import Jack.Proofs.Recognition

namespace Jack.Parser

/-- All values of a reader that succeeds have a property. -/
def Returns (property : α → Prop) (p : Parser α) : Prop :=
  ∀ cursor a after, p cursor = .ok a after → property a

theorem Returns.pure {property : α → Prop} (h : property a) :
    Returns property (Pure.pure a) := by
  rintro cursor _ after ⟨⟩
  exact h

theorem Returns.fail {property : α → Prop} : Returns property (fail e) :=
  fun _ _ _ h => nomatch h

theorem Returns.bind {property : α → Prop} {property' : β → Prop} {p : Parser α}
    {f : α → Parser β} (hp : Returns property p)
    (hf : ∀ a, property a → Returns property' (f a)) : Returns property' (p >>= f) := by
  intro cursor b after h
  obtain ⟨a, mid, ha, hb⟩ := bind_eq_ok h
  exact hf a (hp cursor a mid ha) mid b after hb

theorem Returns.ofExcept {property : α → Prop} {x : Except ParseError α}
    (hx : ∀ a, x = .ok a → property a) : Returns property (ofExcept x) :=
  fun _ a _ h => hx a (ofExcept_eq_ok h).1

theorem Returns.optionally {property : List Tree → Prop} {part : Parser (List Tree)}
    (hp : Returns property part) (hn : property []) :
    Returns property (optionally sign part) := by
  intro cursor trees after h
  rcases optionally_eq_ok h with ⟨-, h⟩ | ⟨-, rfl, -⟩
  · exact hp cursor trees after h
  · exact hn

theorem comments_returns :
    Returns (fun trees => ∃ ts, trees = leaves ts ∧ ∀ t ∈ ts, t.isComment) comments := by
  intro cursor trees after h
  obtain ⟨ts, ht, hc, -⟩ := comments_eq_ok h
  exact ⟨ts, ht, hc⟩

theorem expect_returns (expected : Expected) :
    Returns (fun tree => ∃ t, tree = .leaf t ∧ expected.accepts t) (expect expected) := by
  intro cursor tree after h
  obtain ⟨t, ht, ha, -⟩ := expect_eq_ok h
  exact ⟨t, ht, ha⟩

end Jack.Parser
