import Jack.Command.Report
import Jack.Proofs.CommentConservation
import Jack.Proofs.JsonInjectivity
import Jack.Proofs.OutlineReading

namespace Jack

open Text (Solid trimEnd isBlank)

theorem Text.trimEnd_lineFeed (h : Solid cs) : trimEnd (cs ++ ['\n']) = cs := by
  rw [trimEnd, List.reverse_append, List.reverse_singleton, List.singleton_append,
    List.dropWhile_cons_of_pos isBlank_lineFeed]
  exact h.trimEnd_eq

section Comments

theorem Text.Solid.intercalate (h : ∀ l ∈ ls, Solid l) (hn : ls ≠ []) (separator : List Char) :
    Solid (List.intercalate separator ls) := by
  induction ls with
  | nil => exact absurd rfl hn
  | cons l ls ih =>
    rw [List.forall_mem_cons] at h
    cases ls with
    | nil =>
      rw [List.intercalate_singleton]
      exact h.1
    | cons l' ls =>
      rw [List.intercalate_cons_cons]
      exact (ih h.2 (List.cons_ne_nil l' ls)).append _

theorem CutLine.solid_text (h : CutLine inBlock raw cut false) (hn : cut.pieces ≠ []) :
    Solid cut.text.toList := by
  rw [h.text_eq, String.toList_ofList]
  obtain hs | ⟨_, ho⟩ := h.solid
  · exact .intercalate hs hn _
  · cases ho

theorem getLast?_commentTokens {code : List Token} (hcode : ∀ t ∈ code, ¬ t.isComment)
    (hl : (code ++ LineCut.commentTokens line cut).getLast? = some t) (hc : t.isComment) :
    cut.pieces ≠ [] ∧ t = ⟨.comment cut.text, line⟩ := by
  rw [LineCut.commentTokens] at hl
  split at hl
  · rw [List.append_nil] at hl
    exact absurd hc (hcode t (List.mem_of_getLast? hl))
  · next hn =>
    rw [List.getLast?_concat] at hl
    exact ⟨hn, (Option.some.inj hl).symm⟩

/-- When no block comment is open at the end, the last token is no comment that is empty or ends in
a blank: a line that is blank inside a block comment has a line with a comment after it. -/
theorem CutLines.solid_of_last (openBlock : Option Nat)
    (h : CutLines openBlock.isSome raws cuts false)
    (ht : tokensFrom line (SourceLine.ofLines line openBlock raws).1 = .ok ts) :
    (openBlock.isSome → ts ≠ []) ∧
      ∀ t, ts.getLast? = some t → t.isComment → Solid t.text.toList := by
  induction raws generalizing line openBlock cuts ts with
  | nil =>
    cases ht
    refine ⟨fun ho => ?_, fun t hl => nomatch hl⟩
    rw [ho] at h
    cases h
  | cons raw raws ih =>
    cases h with
    | @cons _ _ cut between _ _ _ hcut hcuts =>
    rw [SourceLine.ofLines, tokensFrom] at ht
    split at ht
    · cases ht
    next tokens hr =>
    split at ht
    · cases ht
    next more hm =>
    cases ht
    obtain ⟨code, rfl, hcode⟩ := (hcut.recorded line).tokens hr
    have hbetween := (hcut.parts line).stillOpen
    obtain ⟨hne, hlast⟩ := ih _ (hbetween ▸ hcuts) hm
    refine ⟨fun ho hnil => ?_, fun t hl hc => ?_⟩
    · rw [ho] at hcut
      simp [LineCut.commentTokens, hcut.pieces_ne_nil] at hnil
    · cases hmore : more.getLast? with
      | some u =>
        rw [List.getLast?_append, hmore] at hl
        exact hlast t (hmore ▸ hl) hc
      | none =>
        have hnil : more = [] := List.getLast?_eq_none_iff.1 hmore
        rw [hnil, List.append_nil] at hl
        have hclosed : between = false := by
          rw [← hbetween]
          exact Bool.eq_false_iff.2 fun ho => hne ho hnil
        obtain ⟨hn, rfl⟩ := getLast?_commentTokens hcode hl hc
        exact (hclosed ▸ hcut).solid_text hn

theorem solid_of_last_comment (h : (tokenizeText options text).result = .ok ts)
    (hl : ts.getLast? = some t) (hc : t.isComment) : Solid t.text.toList := by
  obtain ⟨records, tokens, hs, ht, rfl⟩ := tokenizeText_eq_ok h
  rw [Options.select] at hl
  split at hl
  · obtain ⟨cuts, hcuts⟩ := cutLines_of_sourceLines hs
    have htokens : tokensFrom 1 (SourceLine.ofLines 1 none (Text.lines text.toList)).1 =
        .ok tokens := by
      rw [ofLines_of_sourceLines hs]
      exact ht
    exact (CutLines.solid_of_last none hcuts htokens).2 t hl hc
  · have hm := List.mem_of_getLast? hl
    simp [withoutComments, hc] at hm

end Comments

section Output

/-- The last leaf of a class is a direct child: its closing brace, or a comment after it. -/
theorem Derives.last (h : Derives tree ts) :
    ∃ front t, tree = .node .class_ (front ++ [.leaf t]) ∧ (t.isSymbol '\x7d' ∨ t.isComment) := by
  cases h with
  | @intro before word children after hb hi ha =>
    obtain rfl | ⟨init, t, rfl⟩ := List.eq_nil_or_concat after
    · cases hi with
      | @class_ head name opening body members _ hh hn ho hr =>
        cases hr with
        | @intro _ _ close _ _ inner _ hc _ =>
          exact ⟨leaves before ++ .leaf head :: (leaves name ++ (leaves opening ++ inner)), close,
            by simp [leaves], .inl (terminal_iff.1 hc)⟩
    · rw [List.concat_eq_append] at ha ⊢
      exact ⟨leaves before ++ (children ++ leaves init), t, by simp [leaves],
        .inr (gap_iff.1 ha t (by simp))⟩

theorem forestOutlineLines_append (depth : Nat) (first second : List Tree) :
    forestOutlineLines depth (first ++ second) =
      forestOutlineLines depth first ++ forestOutlineLines depth second := by
  induction first with
  | nil => rfl
  | cons tree first ih =>
    rw [List.cons_append, forestOutlineLines, ih, forestOutlineLines, List.append_assoc]

theorem Tree.outline_last (construct : Construct) (front : List Tree) (t : Token) :
    ∃ before : List Char, (Tree.node construct (front ++ [.leaf t])).outline.toList =
      before ++ t.text.toList ++ ['\n'] := by
  have hline : outlineLine 1 (Tree.leaf t).label =
      outlineLine 1 (t.category.name.toList ++ [' ']) ++ t.text.toList := by
    simp [outlineLine, label]
  have hlines : (Tree.node construct (front ++ [.leaf t])).outlineLines 0 =
      (outlineLine 0 construct.name.toList :: forestOutlineLines 1 front) ++
        [outlineLine 1 (Tree.leaf t).label] := by
    rw [outlineLines, forestOutlineLines_append]
    rfl
  rw [outline, String.toList_ofList, hlines, hline, List.flatMap_append, List.flatMap_singleton,
    ← List.append_assoc, ← List.append_assoc]
  exact ⟨_, rfl⟩

theorem solid_toDigits (n : Nat) : Solid (Nat.toDigits 10 n) := by
  obtain h | ⟨front, c, h⟩ := List.eq_nil_or_concat (Nat.toDigits 10 n)
  · exact absurd h Nat.toDigits_ne_nil
  · rw [List.concat_eq_append] at h
    have hm : c ∈ Nat.toDigits 10 n := h ▸ List.mem_concat_self
    have hd : c.isDigit := Nat.isDigit_of_mem_toDigits (by decide) (by decide) hm
    exact ⟨front, c, h, fun hb => Text.not_isWord_of_isBlank hb (Text.isWord_of_isDigit hd)⟩

theorem Json.write_array_last (style : Style) (depth : Nat) (items : List Json) :
    ∃ front, write style depth (.array items) = front ++ [']'] := by
  have hitems (items : List Json) : ∃ front, writeItems style depth items = front ++ [']'] := by
    induction items with
    | nil => exact ⟨_, by rw [writeItems]⟩
    | cons item items ih =>
      obtain ⟨front, hf⟩ := ih
      exact ⟨_, by rw [writeItems, hf, ← List.append_assoc, ← List.cons_append]⟩
  cases items with
  | nil => exact ⟨['['], rfl⟩
  | cons item items =>
    obtain ⟨front, hf⟩ := hitems items
    exact ⟨_, by rw [write, hf, ← List.append_assoc, ← List.cons_append]⟩

theorem Json.solid_write (style : Style) (depth : Nat) (json : Json) :
    Solid (write style depth json) := by
  cases json with
  | number value => exact solid_toDigits value
  | string value => exact ⟨'"' :: value.toList.flatMap escapeChar, '"', rfl, Text.not_isBlank_quote⟩
  | array items =>
    obtain ⟨front, hf⟩ := write_array_last style depth items
    have hb : ¬ isBlank ']' := by decide
    exact ⟨front, ']', hf, hb⟩
  | object fields =>
    obtain ⟨front, hf⟩ := write_object_last style depth fields
    have hb : ¬ isBlank '\x7d' := by decide
    exact ⟨front, '\x7d', hf, hb⟩

theorem Json.trimEnd_render (style : Style) (json : Json) :
    trimEnd (json.render style).toList = (json.render style).toList := by
  rw [render, String.toList_ofList, (json.solid_write style 0).trimEnd_eq]

theorem Lexeme.solid_description (lexeme : Lexeme) : Solid lexeme.description.toList := by
  have hb : ¬ isBlank '\'' := by decide
  have hquote : Solid "'".toList := ⟨[], '\'', rfl, hb⟩
  have hquotes : Solid "\"".toList := ⟨[], '"', rfl, Text.not_isBlank_quote⟩
  cases lexeme with
  | keyword | symbol | identifier | comment =>
    change Solid (_ ++ "'").toList
    rw [String.toList_append]
    exact hquote.append _
  | string =>
    change Solid (_ ++ "\"").toList
    rw [String.toList_append]
    exact hquotes.append _
  | integer value =>
    have hdigits : Solid value.toNat.repr.toList := by
      rw [Nat.repr, String.toList_ofList]
      exact solid_toDigits value.toNat
    change Solid (_ ++ value.toNat.repr).toList
    rw [String.toList_append]
    exact hdigits.append _

theorem Command.trimEnd_listing (ts : List Token) :
    trimEnd (listing ts).toList = (listing ts).toList := by
  rw [listing, String.toList_ofList]
  cases ts with
  | nil => rfl
  | cons t ts =>
    have hlines : ∀ line ∈ (t :: ts).map listingLine, Solid line := by
      intro line hl
      obtain ⟨u, _, rfl⟩ := List.mem_map.1 hl
      exact (u.lexeme.solid_description.append [' ', ' ']).append _
    exact (Solid.intercalate hlines (List.cons_ne_nil _ _) _).trimEnd_eq

theorem parse_of_parseText (h : (parseText options text).result = .ok tree) :
    (parse tree.tokens).result = .ok tree := by
  rw [parseText_of_tokens (tokens_of_parseText h)] at h
  cases hp : (parse tree.tokens).result with
  | error e =>
    rw [hp] at h
    cases h
  | ok tree' =>
    rw [hp] at h
    cases h
    rfl

/-- The outline of a text that is a class is not trimmed but for its last line end. -/
theorem trimEnd_outline (h : (parseText options text).result = .ok tree) :
    trimEnd tree.outline.toList ++ ['\n'] = tree.outline.toList := by
  obtain ⟨trace, hd⟩ := parse_eq_ok_iff.1 (parse_of_parseText h)
  obtain ⟨front, t, rfl, ht⟩ := (Parser.derives_of_classTree hd).last
  have htext : Solid t.text.toList := by
    obtain hs | hc := ht
    · have hb : ¬ isBlank '\x7d' := by decide
      rw [Token.text, Token.isSymbol_iff.1 hs]
      exact ⟨[], '\x7d', rfl, hb⟩
    · refine solid_of_last_comment (tokens_of_parseText h) ?_ hc
      rw [Tree.tokens_node, forestTokens_append]
      exact List.getLast?_concat
  obtain ⟨before, ho⟩ := Tree.outline_last .class_ front t
  rw [ho, Text.trimEnd_lineFeed (htext.append before)]

end Output

namespace Command

theorem printed_of_lineFeed (h : trimEnd output.toList ++ ['\n'] = output.toList) :
    printed output = output := by
  rw [printed, ← String.toList_inj, String.toList_append, String.toList_ofList]
  exact h

theorem printed_of_trimmed (h : trimEnd output.toList = output.toList) :
    printed output = output ++ "\n" := by
  rw [printed, h, String.ofList_toList]

section Settings

variable {settings : Settings} {text output : String}

theorem tokens_of_output (ht : settings.tokens = true)
    (h : (settings.output text).result = .ok output) :
    ∃ ts, (tokenizeText ⟨!settings.stripComments⟩ text).result = .ok ts ∧
      output = settings.showTokens ts := by
  rw [Settings.output, if_pos ht, Traced.andThen, Traced.mapError] at h
  cases hts : (tokenizeText ⟨!settings.stripComments⟩ text).result with
  | error e =>
    rw [hts] at h
    cases h
  | ok ts =>
    rw [hts] at h
    cases h
    exact ⟨ts, rfl, rfl⟩

theorem tree_of_output (ht : settings.tokens = false)
    (h : (settings.output text).result = .ok output) :
    ∃ tree, (parseText ⟨!settings.stripComments⟩ text).result = .ok tree ∧
      output = settings.showTree tree := by
  rw [Settings.output, if_neg (Bool.eq_false_iff.1 ht), Traced.andThen] at h
  cases hp : (parseText ⟨!settings.stripComments⟩ text).result with
  | error e =>
    rw [hp] at h
    cases h
  | ok tree =>
    rw [hp] at h
    cases h
    exact ⟨tree, rfl, rfl⟩

theorem run_of_output (h : (settings.output text).result = .ok output) :
    (settings.run (.ok text)).exit = 0 ∧ (settings.run (.ok text)).out = printed output := by
  simp only [Settings.run, h, and_self]

/-- What is printed is the whole output: blanks are removed at its end only where it is an outline,
which ends with one line feed, and this line feed is printed again. -/
theorem printed_keeps_output (h : (settings.output text).result = .ok output) :
    (trimEnd output.toList = output.toList ∨ trimEnd output.toList ++ ['\n'] = output.toList) ∧
      (settings.run (.ok text)).exit = 0 ∧
      (settings.tokens = true → ∃ ts,
        (tokenizeText ⟨!settings.stripComments⟩ text).result = .ok ts ∧
          output = (if settings.json then (tokensToJson ts).render .pretty else listing ts) ∧
          (settings.run (.ok text)).out = output ++ "\n") ∧
      (settings.tokens = false → ∃ tree,
        (parseText ⟨!settings.stripComments⟩ text).result = .ok tree ∧
          output = (if settings.json then tree.toJson.render .pretty else tree.outline) ∧
          (settings.run (.ok text)).out = if settings.json then output ++ "\n" else output) := by
  obtain ⟨hexit, hout⟩ := run_of_output h
  rw [hexit, hout]
  cases ht : settings.tokens with
  | true =>
    obtain ⟨ts, hts, ho⟩ := tokens_of_output ht h
    rw [Settings.showTokens] at ho
    have htrim : trimEnd output.toList = output.toList := by
      rw [ho]
      split
      · exact Json.trimEnd_render _ _
      · exact trimEnd_listing ts
    exact ⟨.inl htrim, rfl, fun _ => ⟨ts, hts, ho, printed_of_trimmed htrim⟩, Bool.noConfusion⟩
  | false =>
    obtain ⟨tree, hp, ho⟩ := tree_of_output ht h
    rw [Settings.showTree] at ho
    cases hj : settings.json with
    | true =>
      rw [hj, if_pos rfl] at ho
      have htrim : trimEnd output.toList = output.toList := ho ▸ Json.trimEnd_render _ _
      exact ⟨.inl htrim, rfl, Bool.noConfusion, fun _ => ⟨tree, hp, ho, printed_of_trimmed htrim⟩⟩
    | false =>
      rw [hj, if_neg Bool.false_ne_true] at ho
      have htrim : trimEnd output.toList ++ ['\n'] = output.toList := ho ▸ trimEnd_outline hp
      exact ⟨.inr htrim, rfl, Bool.noConfusion, fun _ => ⟨tree, hp, ho, printed_of_lineFeed htrim⟩⟩

end Settings

/-- A class after which a comment ends its line with blanks. -/
def commentedText : String := "class A \x7b \x7d // b  "

def commentedTree : Tree :=
  .node .class_
    [.leaf ⟨.keyword .class_, 1⟩, .leaf ⟨.identifier "A", 1⟩, .leaf ⟨.symbol '\x7b', 1⟩,
     .leaf ⟨.symbol '\x7d', 1⟩, .leaf ⟨.comment "// b", 1⟩]

def commentedRecord : SourceLine := .codeWithComment "class A \x7b \x7d" "// b"

theorem tokens_of_commentedText :
    (tokenizeText ⟨true⟩ commentedText).result = .ok commentedTree.tokens := by
  have hcode : codeTokens? commentedRecord.codePart 1 =
      some (withoutComments commentedTree.tokens) :=
    (codeTokens?_ofLine 1 none commentedText.toList).trans rfl
  have hline : commentedRecord.tokens 1 = .ok commentedTree.tokens := by
    rw [SourceLine.tokens, hcode]
    rfl
  have hrecords : sourceLines commentedText = .ok [commentedRecord] := rfl
  have htokens : tokenize [commentedRecord] = .ok commentedTree.tokens := by
    rw [tokenize, tokensFrom, hline]
    rfl
  rw [tokenizeText_result, hrecords]
  exact congrArg (Except.map (Options.select ⟨true⟩)) htokens

theorem commentedText_printed :
    let settings : Settings := ⟨"Main.jack", false, false, false, 0⟩
    (settings.output commentedText).result = .ok commentedTree.outline ∧
      settings.tokens = false ∧ (settings.run (.ok commentedText)).exit = 0 ∧
      (settings.run (.ok commentedText)).out = commentedTree.outline := by
  intro settings
  have hp : (parseText ⟨true⟩ commentedText).result = .ok commentedTree :=
    (parseText_of_tokens tokens_of_commentedText).trans rfl
  have ho : settings.output commentedText =
      (parseText ⟨true⟩ commentedText).andThen fun tree => ⟨.ok (settings.showTree tree), []⟩ := rfl
  have h : (settings.output commentedText).result = .ok commentedTree.outline := by
    rw [ho, Traced.andThen, hp]
    rfl
  obtain ⟨-, hexit, -, hout⟩ := printed_keeps_output h
  obtain ⟨_, _, _, hout⟩ := hout rfl
  exact ⟨h, rfl, hexit, hout⟩

end Command

end Jack
