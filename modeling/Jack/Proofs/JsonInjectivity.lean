import Jack.Command.Report
import Jack.Proofs.Labels

namespace Jack

namespace Json

section Strings

def hexValue (c : Char) : Nat :=
  if c.isDigit then c.toNat - '0'.toNat else c.toNat - 'a'.toNat + 10

def readEscape? : List Char → Option (Char × List Char)
  | 'b' :: cs => some ('\x08', cs)
  | 't' :: cs => some ('\t', cs)
  | 'n' :: cs => some ('\n', cs)
  | 'f' :: cs => some ('\x0c', cs)
  | 'r' :: cs => some ('\r', cs)
  | 'u' :: _ :: _ :: high :: low :: cs =>
    some (Char.ofNat (16 * hexValue high + hexValue low), cs)
  | c :: cs => some (c, cs)
  | [] => none

def readChar? : List Char → Option (Char × List Char)
  | c :: cs => if c = '\\' then readEscape? cs else some (c, cs)
  | [] => none

theorem hexValue_digitChar (h : n < 16) : hexValue (Nat.digitChar n) = n := by
  have hall : ∀ n < 16, hexValue (Nat.digitChar n) = n := by decide
  exact hall n h

theorem readChar?_escapeChar (c : Char) (rest : List Char) :
    readChar? (escapeChar c ++ rest) = some (c, rest) := by
  unfold escapeChar
  split
  iterate 7 rfl
  next _ hb _ _ _ _ _ =>
  split
  · next hc =>
    have hn : 16 * (c.toNat / 16) + c.toNat % 16 = c.toNat := Nat.div_add_mod _ _
    change some (Char.ofNat (16 * hexValue _ + hexValue _), rest) = _
    rw [hexValue_digitChar (by omega), hexValue_digitChar (by omega), hn, Char.ofNat_toNat]
  · exact if_neg hb

theorem escapeChar_head (c : Char) : ∃ d cs, escapeChar c = d :: cs ∧ d ≠ '"' := by
  unfold escapeChar
  split
  iterate 7 exact ⟨_, _, rfl, by decide⟩
  next hq _ _ _ _ _ _ =>
  split
  · exact ⟨_, _, rfl, by decide⟩
  · exact ⟨_, _, rfl, hq⟩

theorem escapeChar_append_inj (h : escapeChar c ++ rest = escapeChar c' ++ rest') :
    c = c' ∧ rest = rest' := by
  have hr := congrArg readChar? h
  rw [readChar?_escapeChar, readChar?_escapeChar] at hr
  exact Prod.mk.inj (Option.some.inj hr)

theorem escaped_append_inj {cs cs' : List Char}
    (h : cs.flatMap escapeChar ++ '"' :: rest = cs'.flatMap escapeChar ++ '"' :: rest') :
    cs = cs' ∧ rest = rest' := by
  have hquote (c : Char) (cs more rest : List Char) :
      '"' :: more ≠ (c :: cs).flatMap escapeChar ++ rest := by
    obtain ⟨d, ds, hd, hq⟩ := escapeChar_head c
    rw [List.flatMap_cons, hd]
    exact fun he => hq (List.cons.inj he).1.symm
  induction cs generalizing cs' with
  | nil =>
    cases cs' with
    | nil => exact ⟨rfl, (List.cons.inj h).2⟩
    | cons c' cs' => exact absurd h (hquote _ _ _ _)
  | cons c cs ih =>
    cases cs' with
    | nil => exact absurd h.symm (hquote _ _ _ _)
    | cons c' cs' =>
      simp only [List.flatMap_cons, List.append_assoc] at h
      obtain ⟨rfl, ht⟩ := escapeChar_append_inj h
      obtain ⟨rfl, hr⟩ := ih ht
      exact ⟨rfl, hr⟩

/-- A string ends at its closing quote, since quotes in it are escaped. -/
theorem quote_append_inj (h : quote s ++ rest = quote s' ++ rest') : s = s' ∧ rest = rest' := by
  simp only [quote, List.cons_append, List.append_assoc] at h
  obtain ⟨hs, hr⟩ := escaped_append_inj (List.cons.inj h).2
  exact ⟨String.toList_inj.1 hs, hr⟩

end Strings

section Values

/-- The four kinds of values, which are told apart by their first characters. -/
inductive Shape where
  | number | string | array | object
  deriving DecidableEq

def shape : Json → Shape
  | .number _ => .number
  | .string _ => .string
  | .array _ => .array
  | .object _ => .object

def shapeOf (c : Char) : Shape :=
  if c = '"' then .string
  else if c = '[' then .array
  else if c = '\x7b' then .object
  else .number

theorem shapeOf_digit (h : c.isDigit) : shapeOf c = .number ∧ c ≠ ']' := by
  have hne (d : Char) (hd : d.isDigit = false) : c ≠ d := fun he => by simp [← he, h] at hd
  exact ⟨by simp [shapeOf, hne '"' rfl, hne '[' rfl, hne '\x7b' rfl], hne ']' rfl⟩

/-- What follows a value does not go on with a digit. -/
def Ended (rest : List Char) : Prop := ∀ c, rest.head? = some c → ¬ c.isDigit

theorem toDigits_append_inj (hr : Ended rest) (hr' : Ended rest')
    (h : Nat.toDigits 10 n ++ rest = Nat.toDigits 10 n' ++ rest') : n = n' ∧ rest = rest' := by
  have hd (n : Nat) : ∀ c ∈ Nat.toDigits 10 n, c.isDigit :=
    fun c => Nat.isDigit_of_mem_toDigits (by decide) (by decide)
  obtain ⟨hn, hrest⟩ := append_inj_of_head (hd n) (hd n') hr hr' h
  exact ⟨toDigits_injective hn, hrest⟩

variable {style : Style} {depth : Nat}

theorem write_first (style : Style) (depth : Nat) (json : Json) :
    ∃ c cs, write style depth json = c :: cs ∧ shapeOf c = json.shape ∧ c ≠ ']' := by
  cases json with
  | number value =>
    rw [write]
    cases hd : Nat.toDigits 10 value with
    | nil => exact absurd hd Nat.toDigits_ne_nil
    | cons c cs =>
      have hc : c.isDigit := Nat.isDigit_of_mem_toDigits (b := 10) (n := value) (by decide)
        (by decide) (by rw [hd]; exact List.mem_cons_self ..)
      exact ⟨c, cs, rfl, shapeOf_digit hc⟩
  | string value => exact ⟨_, _, by rw [write, quote], rfl, by decide⟩
  | array items => cases items <;> exact ⟨_, _, by rw [write], rfl, by decide⟩
  | object fields =>
    cases fields with
    | nil => exact ⟨_, _, by rw [write], rfl, by decide⟩
    | cons field fields => exact ⟨_, _, by rw [write], rfl, by decide⟩

theorem shape_eq (h : write style depth json ++ rest = write style depth json' ++ rest') :
    json.shape = json'.shape := by
  obtain ⟨c, cs, hc, hs, -⟩ := write_first style depth json
  obtain ⟨c', cs', hc', hs', -⟩ := write_first style depth json'
  rw [hc, hc', List.cons_append, List.cons_append] at h
  rw [← hs, (List.cons.inj h).1, hs']

theorem head_lineBreak (h : (style.lineBreak depth ++ c :: cs).head? = some d) :
    d = c ∨ d = '\n' := by
  cases style with
  | compact => exact .inl (Option.some.inj h).symm
  | pretty => exact .inr (Option.some.inj h).symm

theorem ended_writeItems (items : List Json) (rest : List Char) :
    Ended (writeItems style depth items ++ rest) := by
  intro c hc
  cases items with
  | nil =>
    rw [writeItems, List.append_assoc] at hc
    obtain rfl | rfl := head_lineBreak hc <;> decide
  | cons item items =>
    rw [writeItems] at hc
    cases hc
    decide

theorem ended_writeFields (fields : List (String × Json)) (rest : List Char) :
    Ended (writeFields style depth fields ++ rest) := by
  intro c hc
  cases fields with
  | nil =>
    rw [writeFields, List.append_assoc] at hc
    obtain rfl | rfl := head_lineBreak hc <;> decide
  | cons field fields =>
    rw [writeFields] at hc
    cases hc
    decide

theorem bracket_ne_item (json : Json) (rest more : List Char) :
    ']' :: rest ≠ style.lineBreak depth ++ (write style depth json ++ more) := by
  intro h
  obtain ⟨c, cs, hc, -, hb⟩ := write_first style depth json
  rw [hc, List.cons_append] at h
  obtain he | he := head_lineBreak (congrArg List.head? h).symm
  · exact hb he.symm
  · cases he

theorem brace_ne_name (name : String) (rest more : List Char) :
    '\x7d' :: rest ≠ style.lineBreak depth ++ (quote name ++ more) := by
  intro h
  rw [quote, List.cons_append] at h
  obtain he | he := head_lineBreak (congrArg List.head? h).symm <;> cases he

theorem closing_ne_comma (hc : c ≠ ',') (rest more : List Char) :
    style.lineBreak depth ++ c :: rest ≠ ',' :: more := by
  intro h
  obtain he | he := head_lineBreak (congrArg List.head? h)
  · exact hc he.symm
  · cases he

/-- The first item of an array is written like those after it, but for the character before it, so
that arrays are told apart like the items after a first one. -/
theorem array_append_inj {items items' : List Json}
    (ih : writeItems style depth items ++ rest = writeItems style depth items' ++ rest' →
      items = items' ∧ rest = rest')
    (h : write style depth (.array items) ++ rest = write style depth (.array items') ++ rest') :
    items = items' ∧ rest = rest' := by
  cases items with
  | nil =>
    cases items' with
    | nil => exact ⟨rfl, (List.cons.inj (List.cons.inj h).2).2⟩
    | cons item' items' =>
      simp only [write, List.cons_append, List.append_assoc] at h
      exact absurd (List.cons.inj h).2 (bracket_ne_item _ _ _)
  | cons item items =>
    cases items' with
    | nil =>
      simp only [write, List.cons_append, List.append_assoc] at h
      exact absurd (List.cons.inj h).2.symm (bracket_ne_item _ _ _)
    | cons item' items' =>
      apply ih
      simp only [write, List.cons_append, List.append_assoc] at h
      simp only [writeItems, List.cons_append, List.append_assoc, (List.cons.inj h).2]

theorem object_append_inj {fields fields' : List (String × Json)}
    (ih : writeFields style depth fields ++ rest = writeFields style depth fields' ++ rest' →
      fields = fields' ∧ rest = rest')
    (h : write style depth (.object fields) ++ rest =
      write style depth (.object fields') ++ rest') :
    fields = fields' ∧ rest = rest' := by
  cases fields with
  | nil =>
    cases fields' with
    | nil => exact ⟨rfl, (List.cons.inj (List.cons.inj h).2).2⟩
    | cons field' fields' =>
      simp only [write, List.cons_append, List.append_assoc] at h
      exact absurd (List.cons.inj h).2 (brace_ne_name _ _ _)
  | cons field fields =>
    cases fields' with
    | nil =>
      simp only [write, List.cons_append, List.append_assoc] at h
      exact absurd (List.cons.inj h).2.symm (brace_ne_name _ _ _)
    | cons field' fields' =>
      apply ih
      simp only [write, List.cons_append, List.append_assoc] at h
      simp only [writeFields, List.cons_append, List.append_assoc, (List.cons.inj h).2]

mutual

/-- A written value is followed by only one rest. -/
theorem write_append_inj (style : Style) (depth : Nat) {rest rest' : List Char} :
    (json json' : Json) → Ended rest → Ended rest' →
      write style depth json ++ rest = write style depth json' ++ rest' →
      json = json' ∧ rest = rest'
  | .number value, json', hr, hr', h => by
    cases json' with
    | number value' =>
      rw [write, write] at h
      obtain ⟨rfl, hrest⟩ := toDigits_append_inj hr hr' h
      exact ⟨rfl, hrest⟩
    | string | array | object => cases shape_eq h
  | .string value, json', _, _, h => by
    cases json' with
    | string value' =>
      rw [write, write] at h
      obtain ⟨rfl, hrest⟩ := quote_append_inj h
      exact ⟨rfl, hrest⟩
    | number | array | object => cases shape_eq h
  | .array items, json', _, _, h => by
    cases json' with
    | array items' =>
      obtain ⟨rfl, hrest⟩ := array_append_inj (writeItems_append_inj style depth items items') h
      exact ⟨rfl, hrest⟩
    | number | string | object => cases shape_eq h
  | .object fields, json', _, _, h => by
    cases json' with
    | object fields' =>
      obtain ⟨rfl, hrest⟩ :=
        object_append_inj (writeFields_append_inj style depth fields fields') h
      exact ⟨rfl, hrest⟩
    | number | string | array => cases shape_eq h

theorem writeItems_append_inj (style : Style) (depth : Nat) {rest rest' : List Char} :
    (items items' : List Json) →
      writeItems style depth items ++ rest = writeItems style depth items' ++ rest' →
      items = items' ∧ rest = rest'
  | [], [], h => by
    rw [writeItems, List.append_assoc, List.append_assoc] at h
    exact ⟨rfl, (List.cons.inj (List.append_cancel_left h)).2⟩
  | [], item' :: items', h => by
    simp only [writeItems, List.cons_append, List.nil_append, List.append_assoc] at h
    exact absurd h (closing_ne_comma (by decide) _ _)
  | item :: items, [], h => by
    simp only [writeItems, List.cons_append, List.nil_append, List.append_assoc] at h
    exact absurd h.symm (closing_ne_comma (by decide) _ _)
  | item :: items, item' :: items', h => by
    simp only [writeItems, List.cons_append, List.append_assoc] at h
    have hi := List.append_cancel_left (List.cons.inj h).2
    obtain ⟨rfl, hs⟩ := write_append_inj style (depth + 1) item item'
      (ended_writeItems items _) (ended_writeItems items' _) hi
    obtain ⟨rfl, hrest⟩ := writeItems_append_inj style depth items items' hs
    exact ⟨rfl, hrest⟩

theorem writeFields_append_inj (style : Style) (depth : Nat) {rest rest' : List Char} :
    (fields fields' : List (String × Json)) →
      writeFields style depth fields ++ rest = writeFields style depth fields' ++ rest' →
      fields = fields' ∧ rest = rest'
  | [], [], h => by
    rw [writeFields, List.append_assoc, List.append_assoc] at h
    exact ⟨rfl, (List.cons.inj (List.append_cancel_left h)).2⟩
  | [], (name', value') :: fields', h => by
    simp only [writeFields, List.cons_append, List.nil_append, List.append_assoc] at h
    exact absurd h (closing_ne_comma (by decide) _ _)
  | (name, value) :: fields, [], h => by
    simp only [writeFields, List.cons_append, List.nil_append, List.append_assoc] at h
    exact absurd h.symm (closing_ne_comma (by decide) _ _)
  | (name, value) :: fields, (name', value') :: fields', h => by
    simp only [writeFields, List.cons_append, List.append_assoc] at h
    obtain ⟨rfl, hv⟩ := quote_append_inj (List.append_cancel_left (List.cons.inj h).2)
    obtain ⟨rfl, hs⟩ := write_append_inj style (depth + 1) value value'
      (ended_writeFields fields _) (ended_writeFields fields' _) (List.append_cancel_left hv)
    obtain ⟨rfl, hrest⟩ := writeFields_append_inj style depth fields fields' hs
    exact ⟨rfl, hrest⟩

end

theorem render_injective {json json' : Json} (h : json.render style = json'.render style) :
    json = json' := by
  have hnil : Ended [] := fun c hc => nomatch hc
  have hw := String.ofList_inj.1 h
  rw [← List.append_nil (write style 0 json), ← List.append_nil (write style 0 json')] at hw
  exact (write_append_inj style 0 json json' hnil hnil hw).1

end Values

theorem write_object_last (style : Style) (depth : Nat) (fields : List (String × Json)) :
    ∃ front, write style depth (.object fields) = front ++ ['\x7d'] := by
  have hfields (fields : List (String × Json)) :
      ∃ front, writeFields style depth fields = front ++ ['\x7d'] := by
    induction fields with
    | nil => exact ⟨_, by rw [writeFields]⟩
    | cons field fields ih =>
      obtain ⟨front, hf⟩ := ih
      exact ⟨_, by rw [writeFields, hf, ← List.append_assoc, ← List.cons_append]⟩
  cases fields with
  | nil => exact ⟨['\x7b'], rfl⟩
  | cons field fields =>
    obtain ⟨front, hf⟩ := hfields fields
    exact ⟨_, by rw [write, hf, ← List.append_assoc, ← List.cons_append]⟩

end Json

theorem Token.toJson_injective {t t' : Token} (h : t.toJson = t'.toJson) : t = t' := by
  obtain ⟨lexeme, line⟩ := t
  obtain ⟨lexeme', line'⟩ := t'
  simp only [toJson, Json.object.injEq, List.cons.injEq, Prod.mk.injEq, Json.string.injEq,
    Json.number.injEq, true_and, and_true] at h
  obtain ⟨hcategory, hvalue, rfl⟩ := h
  have hc : lexeme.category = lexeme'.category := Category.name_injective hcategory
  have hl : lexeme = lexeme' := by
    cases lexeme <;> cases lexeme' <;> cases hc
    case integer value value' =>
      exact congrArg _ (UInt64.toNat_inj.1 (Json.number.inj hvalue))
    all_goals exact Lexeme.eq_of_text rfl (Json.string.inj hvalue)
  rw [hl]

mutual

/-- The untagged forms of leaves and nodes differ in the name of their second field. -/
theorem Tree.toJson_injective : (tree tree' : Tree) → tree.toJson = tree'.toJson → tree = tree'
  | .leaf t, .leaf t', h => congrArg _ (Token.toJson_injective h)
  | .leaf t, .node construct' children', h => by
    simp [Tree.toJson, Token.toJson] at h
  | .node construct children, .leaf t', h => by
    simp [Tree.toJson, Token.toJson] at h
  | .node construct children, .node construct' children', h => by
    simp only [Tree.toJson, Json.object.injEq, List.cons.injEq, Prod.mk.injEq, Json.string.injEq,
      Json.array.injEq, true_and, and_true] at h
    obtain ⟨hname, hchildren⟩ := h
    rw [Construct.name_injective hname, forestToJson_injective children children' hchildren]

theorem forestToJson_injective :
    (trees trees' : List Tree) → forestToJson trees = forestToJson trees' → trees = trees'
  | [], [], _ => rfl
  | [], tree' :: trees', h => by
    rw [forestToJson, forestToJson] at h
    cases h
  | tree :: trees, [], h => by
    rw [forestToJson, forestToJson] at h
    cases h
  | tree :: trees, tree' :: trees', h => by
    simp only [forestToJson, List.cons.injEq] at h
    rw [Tree.toJson_injective tree tree' h.1, forestToJson_injective trees trees' h.2]

end

namespace Command

theorem printed_json (style : Json.Style) (tree : Tree) :
    printed (tree.toJson.render style) = tree.toJson.render style ++ "\n" := by
  have hlast : ∃ front, tree.toJson.write style 0 = front ++ ['\x7d'] := by
    cases tree with
    | leaf t => exact Json.write_object_last _ _ _
    | node construct children => exact Json.write_object_last _ _ _
  obtain ⟨front, hf⟩ := hlast
  have hb : ¬ Text.isBlank '\x7d' := by decide
  rw [printed, Json.render, String.toList_ofList, hf, Text.trimEnd_of_last hb]

end Command

theorem render_toJson_inj {tree tree' : Tree} :
    tree.toJson.render style = tree'.toJson.render style ↔ tree = tree' :=
  ⟨fun h => Tree.toJson_injective _ _ (Json.render_injective h), fun h => by rw [h]⟩

/-- The JSON form of a tree, on one line or on many, and also as it is printed, is that of no other
tree: it tells all constructs, and all tokens with their lexical classes, values and lines. -/
theorem json_unambiguous (tree tree' : Tree) :
    (∀ style, tree.toJson.render style = tree'.toJson.render style ↔ tree = tree') ∧
      ∀ settings : Command.Settings, settings.json →
        (Command.printed (settings.showTree tree) = Command.printed (settings.showTree tree') ↔
          tree = tree') := by
  refine ⟨fun style => render_toJson_inj, fun settings hj => ⟨fun h => ?_, fun h => by rw [h]⟩⟩
  rw [Command.Settings.showTree, Command.Settings.showTree, if_pos hj, if_pos hj,
    Command.printed_json, Command.printed_json] at h
  exact render_toJson_inj.1 (String.append_left_inj _ |>.1 h)

/-- The number five and a name that is spelled like it are printed in different ways. -/
theorem printed_five_ne :
    let settings : Command.Settings := ⟨"Main.jack", false, true, false, 0⟩
    let number : Tree := .node .term [.leaf ⟨.integer 5, 1⟩]
    let name : Tree := .node .term [.leaf ⟨.identifier "5", 1⟩]
    settings.json = true ∧
      Command.printed (settings.showTree number) ≠ Command.printed (settings.showTree name) := by
  intro settings number name
  refine ⟨rfl, fun h => ?_⟩
  have he : number = name := ((json_unambiguous number name).2 settings rfl).1 h
  simp [number, name] at he

end Jack
