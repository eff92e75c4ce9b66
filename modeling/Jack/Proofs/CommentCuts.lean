import Jack.SourceLine
import Mathlib.Data.List.TakeWhile

namespace Jack

/-- The text `front ++ rest` is cut at the first place where `mark` holds of the parts before and
after it. -/
structure FirstCut (mark : List Char → List Char → Prop) (front rest : List Char) : Prop where
  holds : mark front rest
  first : ∀ before after, before ++ after = front ++ rest → mark before after →
    front.length ≤ before.length

def Uncut (mark : List Char → List Char → Prop) (cs : List Char) : Prop :=
  ∀ before after, before ++ after = cs → ¬ mark before after

section Cuts

variable {mark : List Char → List Char → Prop}

theorem Uncut.cons (h : Uncut mark (c :: cs)) :
    ¬ mark [] (c :: cs) ∧ Uncut (fun before after => mark (c :: before) after) cs :=
  ⟨h [] (c :: cs) rfl, fun before after he => h (c :: before) after (congrArg (c :: ·) he)⟩

theorem FirstCut.cons (h : FirstCut mark (c :: front) rest) :
    ¬ mark [] (c :: (front ++ rest)) ∧
      FirstCut (fun before after => mark (c :: before) after) front rest := by
  constructor
  · intro hm
    have := h.first [] (c :: (front ++ rest)) rfl hm
    simp at this
  · refine ⟨h.holds, fun before after he hm => ?_⟩
    have := h.first (c :: before) after (congrArg (c :: ·) he) hm
    simpa using this

theorem uncut_or_firstCut (mark : List Char → List Char → Prop) (cs : List Char) :
    Uncut mark cs ∨ ∃ front rest, front ++ rest = cs ∧ FirstCut mark front rest := by
  induction cs generalizing mark with
  | nil =>
    by_cases hm : mark [] []
    · exact .inr ⟨[], [], rfl, hm, fun _ _ _ _ => Nat.zero_le _⟩
    · refine .inl fun before after he => ?_
      obtain ⟨rfl, rfl⟩ := List.append_eq_nil_iff.1 he
      exact hm
  | cons c cs ih =>
    by_cases hm : mark [] (c :: cs)
    · exact .inr ⟨[], c :: cs, rfl, hm, fun _ _ _ _ => Nat.zero_le _⟩
    obtain h | ⟨front, rest, rfl, h⟩ := ih fun before after => mark (c :: before) after
    · refine .inl fun before after he => ?_
      cases before with
      | nil =>
        cases he
        exact hm
      | cons d before =>
        cases he
        exact h before after rfl
    · refine .inr ⟨c :: front, rest, rfl, h.holds, fun before after he hb => ?_⟩
      cases before with
      | nil =>
        cases he
        exact absurd hb hm
      | cons d before =>
        rw [List.cons_append, List.cons_append, List.cons.injEq] at he
        obtain ⟨rfl, he⟩ := he
        exact Nat.succ_le_succ (h.first before after he hb)

theorem uncut_iff_take :
    Uncut mark cs ↔ ∀ count < cs.length + 1, ¬ mark (cs.take count) (cs.drop count) := by
  constructor
  · exact fun h count _ => h _ _ (List.take_append_drop count cs)
  · rintro h before after rfl
    have hb := h before.length (by rw [List.length_append]; omega)
    rwa [List.take_left, List.drop_left] at hb

theorem firstCut_iff_take :
    FirstCut mark front rest ↔ mark front rest ∧
      ∀ count < front.length, ¬ mark ((front ++ rest).take count) ((front ++ rest).drop count) := by
  constructor
  · intro h
    refine ⟨h.holds, fun count hc hm => ?_⟩
    have hl := h.first _ _ (List.take_append_drop count _) hm
    rw [List.length_take] at hl
    omega
  · intro ⟨hm, h⟩
    refine ⟨hm, fun before after he hb => Nat.le_of_not_lt fun hl => h before.length hl ?_⟩
    rwa [← he, List.take_left, List.drop_left]

instance [DecidableRel mark] : Decidable (Uncut mark cs) :=
  decidable_of_iff _ uncut_iff_take.symm

instance [DecidableRel mark] : Decidable (FirstCut mark front rest) :=
  decidable_of_iff _ firstCut_iff_take.symm

end Cuts

/-- Whether a string literal is open after a piece of code. -/
def quoteOpen (front : List Char) : Bool := front.count '"' % 2 = 1

theorem quoteOpen_concat (front : List Char) (c : Char) :
    quoteOpen (front ++ [c]) = if c = '"' then !quoteOpen front else quoteOpen front := by
  rw [quoteOpen, quoteOpen, List.count_append]
  by_cases hc : c = '"'
  · subst hc
    rw [if_pos rfl, List.count_singleton_self]
    by_cases ho : front.count '"' % 2 = 1 <;> simp [ho] <;> omega
  · rw [if_neg hc, List.count_singleton, if_neg (by simpa using hc), Nat.add_zero]

/-- A comment is opened outside string literals between two parts of a piece of code. -/
def OpensComment (front rest : List Char) : Prop :=
  quoteOpen front = false ∧ (['/', '/'] <+: rest ∨ ['/', '*'] <+: rest)

def ClosesComment (_ rest : List Char) : Prop := ['*', '/'] <+: rest

instance : DecidableRel OpensComment :=
  fun front _ => inferInstanceAs (Decidable (quoteOpen front = false ∧ (_ ∨ _)))

instance : DecidableRel ClosesComment :=
  fun _ rest => inferInstanceAs (Decidable (['*', '/'] <+: rest))

/-- The comment pieces of a line, or of the rest of one, and the text outside them. -/
structure LineCut where
  pieces : List (List Char)
  outside : List Char
  deriving DecidableEq, Repr

open Text (trim isBlank)

/-- The cut of code up to the end of its line; `stillOpen` says whether a block comment is open
there. -/
inductive CutCode : List Char → LineCut → (stillOpen : Bool) → Prop where
  | plain (h : Uncut OpensComment cs) : CutCode cs ⟨[], cs⟩ false
  | lineComment (h : FirstCut OpensComment front ('/' :: '/' :: rest)) :
      CutCode (front ++ '/' :: '/' :: rest) ⟨[trim ('/' :: '/' :: rest)], front⟩ false
  | closed (h : FirstCut OpensComment front ('/' :: '*' :: (body ++ '*' :: '/' :: rest)))
      (hc : FirstCut ClosesComment body ('*' :: '/' :: rest)) (hr : CutCode rest cut stillOpen) :
      CutCode (front ++ '/' :: '*' :: (body ++ '*' :: '/' :: rest))
        ⟨('/' :: '*' :: (body ++ ['*', '/'])) :: cut.pieces, front ++ cut.outside⟩ stillOpen
  | unclosed (h : FirstCut OpensComment front ('/' :: '*' :: rest))
      (hc : Uncut ClosesComment rest) :
      CutCode (front ++ '/' :: '*' :: rest) ⟨[trim ('/' :: '*' :: rest)], front⟩ true

/-- The cut of a line, which starts inside a block comment or in code. -/
inductive CutLine : (inBlock : Bool) → List Char → LineCut → (stillOpen : Bool) → Prop where
  | code (h : CutCode cs cut stillOpen) : CutLine false cs cut stillOpen
  | inside (h : Uncut ClosesComment cs) : CutLine true cs ⟨[trim cs], []⟩ true
  | closing (h : FirstCut ClosesComment body ('*' :: '/' :: rest))
      (hr : CutCode rest cut stillOpen) :
      CutLine true (body ++ '*' :: '/' :: rest)
        ⟨trim (body ++ ['*', '/']) :: cut.pieces, cut.outside⟩ stillOpen

inductive CutLines : (inBlock : Bool) → List (List Char) → List LineCut → (stillOpen : Bool) →
    Prop where
  | nil : CutLines inBlock [] [] inBlock
  | cons (h : CutLine inBlock raw cut between) (hr : CutLines between raws cuts stillOpen) :
      CutLines inBlock (raw :: raws) (cut :: cuts) stillOpen

section Totality

theorem exists_cutCode (cs : List Char) : ∃ cut stillOpen, CutCode cs cut stillOpen := by
  induction hn : cs.length using Nat.strongRecOn generalizing cs with | ind n ih =>
  subst hn
  obtain h | ⟨front, rest, rfl, h⟩ := uncut_or_firstCut OpensComment cs
  · exact ⟨_, _, .plain h⟩
  obtain ⟨rest, rfl⟩ | ⟨rest, rfl⟩ := h.holds.2
  · exact ⟨_, _, .lineComment h⟩
  obtain hc | ⟨body, rest', rfl, hc⟩ := uncut_or_firstCut ClosesComment rest
  · exact ⟨_, _, .unclosed h hc⟩
  obtain ⟨rest, rfl⟩ := hc.holds
  have hlt : rest.length < (front ++ '/' :: '*' :: (body ++ '*' :: '/' :: rest)).length := by
    simp only [List.length_append, List.length_cons]
    omega
  obtain ⟨cut, stillOpen, hr⟩ := ih rest.length hlt rest rfl
  exact ⟨_, _, .closed h hc hr⟩

theorem exists_cutLine (inBlock : Bool) (raw : List Char) :
    ∃ cut stillOpen, CutLine inBlock raw cut stillOpen := by
  cases inBlock with
  | false =>
    obtain ⟨cut, stillOpen, h⟩ := exists_cutCode raw
    exact ⟨cut, stillOpen, .code h⟩
  | true =>
    obtain h | ⟨body, rest, rfl, h⟩ := uncut_or_firstCut ClosesComment raw
    · exact ⟨_, _, .inside h⟩
    obtain ⟨rest, rfl⟩ := h.holds
    obtain ⟨cut, stillOpen, hr⟩ := exists_cutCode rest
    exact ⟨_, _, .closing h hr⟩

theorem exists_cutLines (inBlock : Bool) (raws : List (List Char)) :
    ∃ cuts stillOpen, CutLines inBlock raws cuts stillOpen := by
  induction raws generalizing inBlock with
  | nil => exact ⟨_, _, .nil⟩
  | cons raw raws ih =>
    obtain ⟨cut, between, h⟩ := exists_cutLine inBlock raw
    obtain ⟨cuts, stillOpen, hr⟩ := ih between
    exact ⟨cut :: cuts, stillOpen, .cons h hr⟩

end Totality

section Parts

variable (line : Nat)

theorem splitCode_cons (inString : Bool) (cs : List Char)
    (h : inString = false → ¬ (['/', '/'] <+: c :: cs ∨ ['/', '*'] <+: c :: cs)) :
    splitCode line inString (c :: cs) =
      (splitCode line (if c = '"' then !inString else inString) cs).addCode c := by
  apply splitCode.eq_4
  · intro rest hs hc hr
    exact h hs (.inl ⟨rest, by rw [hc, hr]; rfl⟩)
  · intro rest hs hc hr
    exact h hs (.inr ⟨rest, by rw [hc, hr]; rfl⟩)

theorem splitCode_pass {passed : List Char} (h : ¬ OpensComment passed (c :: cs)) :
    splitCode line (quoteOpen passed) (c :: cs) =
      (splitCode line (quoteOpen (passed ++ [c])) cs).addCode c := by
  rw [quoteOpen_concat]
  exact splitCode_cons line _ cs fun hq ho => h ⟨hq, ho⟩

theorem splitCode_uncut (passed : List Char)
    (h : Uncut (fun before after => OpensComment (passed ++ before) after) cs) :
    splitCode line (quoteOpen passed) cs = ⟨cs, [], none⟩ := by
  induction cs generalizing passed with
  | nil => rw [splitCode]
  | cons c cs ih =>
    obtain ⟨hc, hcs⟩ := h.cons
    rw [List.append_nil] at hc
    rw [splitCode_pass line hc, ih _ (by simpa using hcs)]
    rfl

theorem splitCode_firstCut (passed : List Char)
    (h : FirstCut (fun before after => OpensComment (passed ++ before) after) front rest) :
    splitCode line (quoteOpen passed) (front ++ rest) =
      { splitCode line false rest with code := front ++ (splitCode line false rest).code } := by
  induction front generalizing passed with
  | nil =>
    have hq := h.holds.1
    rw [List.append_nil] at hq
    rw [hq]
    rfl
  | cons c front ih =>
    obtain ⟨hc, hfront⟩ := h.cons
    rw [List.append_nil] at hc
    rw [List.cons_append, splitCode_pass line hc, ih _ (by simpa using hfront)]
    rfl

variable {line}

theorem splitBlock_pass (opened : Nat) (h : ¬ ['*', '/'] <+: c :: cs) :
    splitBlock line opened (c :: cs) =
      (c :: (splitBlock line opened cs).1, (splitBlock line opened cs).2) := by
  apply splitBlock.eq_3
  intro rest hc hr
  exact h ⟨rest, by rw [hc, hr]; rfl⟩

theorem splitBlock_uncut (opened : Nat) (h : Uncut ClosesComment cs) :
    splitBlock line opened cs = (cs, ⟨[], [], some opened⟩) := by
  induction cs with
  | nil => rw [splitBlock]
  | cons c cs ih =>
    obtain ⟨hc, hcs⟩ := h.cons
    rw [splitBlock_pass opened hc, ih hcs]

theorem splitBlock_firstCut (opened : Nat) (h : FirstCut ClosesComment body ('*' :: '/' :: rest)) :
    splitBlock line opened (body ++ '*' :: '/' :: rest) =
      (body ++ ['*', '/'], splitCode line false rest) := by
  induction body with
  | nil => rw [List.nil_append, splitBlock, List.nil_append]
  | cons c body ih =>
    obtain ⟨hc, hbody⟩ := h.cons
    rw [List.cons_append, splitBlock_pass opened hc, ih hbody]
    rfl

/-- The parts of a line are those of its cut: the same pieces once they are trimmed, and code that
is blank where the text outside the pieces is. -/
structure LineParts.CutAs (parts : LineParts) (cut : LineCut) (stillOpen : Bool) : Prop where
  pieces : parts.comments.map trim = cut.pieces
  blank : parts.code.all isBlank = cut.outside.all isBlank
  stillOpen : parts.openBlock.isSome = stillOpen

theorem Text.trim_of_ends (hs : ¬ isBlank c) (he : ¬ isBlank d) (cs : List Char) :
    trim (c :: (cs ++ [d])) = c :: (cs ++ [d]) := by
  rw [trim, ← List.cons_append, trimEnd_of_last he, List.cons_append, trimStart,
    List.dropWhile_cons_of_neg hs]

theorem trim_blockComment (body : List Char) :
    trim ('/' :: '*' :: (body ++ ['*', '/'])) = '/' :: '*' :: (body ++ ['*', '/']) := by
  have hb : ¬ isBlank '/' := by decide
  have h := Text.trim_of_ends hb hb ('*' :: (body ++ ['*']))
  rwa [List.cons_append, List.append_assoc] at h

theorem CutCode.parts (h : CutCode cs cut stillOpen) (line : Nat) :
    (splitCode line false cs).CutAs cut stillOpen := by
  have hs : false = quoteOpen [] := rfl
  induction h with
  | plain h =>
    rw [hs, splitCode_uncut line [] h]
    exact ⟨rfl, rfl, rfl⟩
  | lineComment h =>
    rw [hs, splitCode_firstCut line [] h, splitCode]
    exact ⟨rfl, by rw [List.append_nil], rfl⟩
  | closed h hc _ ih =>
    rw [hs, splitCode_firstCut line [] h, splitCode, splitBlock_firstCut line hc]
    refine ⟨?_, ?_, ih.stillOpen⟩
    · exact congrArg₂ List.cons (trim_blockComment _) ih.pieces
    · simp only [LineParts.addCode, LineParts.addComment, List.all_append, List.all_cons, ih.blank]
      rfl
  | unclosed h hc =>
    rw [hs, splitCode_firstCut line [] h, splitCode, splitBlock_uncut line hc]
    refine ⟨rfl, ?_, rfl⟩
    simp only [LineParts.addCode, LineParts.addComment, List.all_append]
    exact Bool.and_true _

theorem CutLine.parts (h : CutLine openBlock.isSome raw cut stillOpen) (line : Nat) :
    (LineParts.ofLine line openBlock raw).CutAs cut stillOpen := by
  cases openBlock with
  | none =>
    cases h with
    | code h => exact h.parts line
  | some opened =>
    rw [LineParts.ofLine]
    cases h with
    | inside h =>
      rw [splitBlock_uncut opened h]
      exact ⟨rfl, rfl, rfl⟩
    | closing h hr =>
      have hp := hr.parts line
      rw [splitBlock_firstCut opened h]
      exact ⟨congrArg (_ :: ·) hp.pieces, hp.blank, hp.stillOpen⟩

end Parts

def Text.Solid (cs : List Char) : Prop := ∃ front c, cs = front ++ [c] ∧ ¬ isBlank c

section Pieces

theorem Text.Solid.ne_nil (h : Solid cs) : cs ≠ [] := by
  obtain ⟨front, c, rfl, _⟩ := h
  exact List.append_ne_nil_of_right_ne_nil front (List.cons_ne_nil c [])

theorem Text.Solid.trimEnd_eq (h : Solid cs) : trimEnd cs = cs := by
  obtain ⟨front, c, rfl, hc⟩ := h
  exact trimEnd_of_last hc front

theorem Text.Solid.append (h : Solid ds) (cs : List Char) : Solid (cs ++ ds) := by
  obtain ⟨front, c, rfl, hc⟩ := h
  exact ⟨cs ++ front, c, (List.append_assoc ..).symm, hc⟩

theorem Text.trimEnd_cases (cs : List Char) : trimEnd cs = [] ∨ Solid (trimEnd cs) := by
  have hd := List.head?_dropWhile_not isBlank cs.reverse
  rw [trimEnd]
  cases hr : cs.reverse.dropWhile isBlank with
  | nil => exact .inl rfl
  | cons c rest =>
    rw [hr] at hd
    exact .inr ⟨rest.reverse, c, List.reverse_cons, by simpa using hd⟩

theorem Text.trim_cases (cs : List Char) : trim cs = [] ∨ Solid (trim cs) := by
  rw [trim]
  obtain h | ⟨front, c, h, hc⟩ := trimEnd_cases cs
  · rw [h]
    exact .inl rfl
  · rw [h, trimStart, List.dropWhile_append, List.dropWhile_cons_of_neg hc]
    split
    · exact .inr ⟨[], c, rfl, hc⟩
    · exact .inr ⟨_, c, rfl, hc⟩

theorem Text.solid_trim (hm : c ∈ cs) (hc : ¬ isBlank c) : Solid (trim cs) := by
  refine (trim_cases cs).resolve_left fun he => hc ?_
  have hend : ∀ d ∈ trimEnd cs, isBlank d := List.dropWhile_eq_nil_iff.1 he
  obtain ⟨blanks, hb, ha⟩ := trimEnd_append_blanks cs
  rw [← ha] at hm
  exact (List.mem_append.1 hm).elim (hend c) (hb c)

theorem CutCode.solid (h : CutCode cs cut stillOpen) : ∀ piece ∈ cut.pieces, Text.Solid piece := by
  have hb : ¬ isBlank '/' := by decide
  induction h with
  | plain => exact fun piece hp => nomatch hp
  | lineComment | unclosed =>
    exact List.forall_mem_singleton.2 (Text.solid_trim (List.mem_cons_self ..) hb)
  | @closed _ body _ _ _ _ _ _ ih =>
    refine List.forall_mem_cons.2 ⟨?_, ih⟩
    exact ⟨'/' :: '*' :: (body ++ ['*']), '/', by simp, hb⟩

/-- Only a blank line inside a block comment has an empty piece. -/
theorem CutLine.solid (h : CutLine inBlock raw cut stillOpen) :
    (∀ piece ∈ cut.pieces, Text.Solid piece) ∨ cut.pieces = [[]] ∧ stillOpen = true := by
  cases h with
  | code h => exact .inl h.solid
  | inside h =>
    obtain he | hs := Text.trim_cases raw
    · exact .inr ⟨congrArg ([·]) he, rfl⟩
    · exact .inl (List.forall_mem_singleton.2 hs)
  | closing h hr =>
    have hb : ¬ isBlank '/' := by decide
    have hm : '/' ∈ ['*', '/'] := by decide
    exact .inl (List.forall_mem_cons.2 ⟨Text.solid_trim (List.mem_append_right _ hm) hb, hr.solid⟩)

theorem CutLine.pieces_ne_nil (h : CutLine true raw cut stillOpen) : cut.pieces ≠ [] := by
  cases h <;> exact List.cons_ne_nil _ _

end Pieces

end Jack
