import Jack.Proofs.CommentTransparency
import Jack.Proofs.GrammarAcceptance
import Jack.Proofs.Labels
import Jack.Proofs.OneLine
import Jack.Tree.Outline

namespace Jack

/-- A label that does not begin with a space, so that its indentation can be told from it. -/
def Flush (label : List Char) : Prop := ∃ c, label.head? = some c ∧ c ≠ ' '

theorem Flush.of_not_mem (hn : label ≠ []) (hs : ' ' ∉ label) : Flush label := by
  cases label with
  | nil => exact absurd rfl hn
  | cons c cs => exact ⟨c, rfl, fun hc => hs (hc ▸ List.mem_cons_self ..)⟩

theorem Flush.append (h : Flush label) (rest : List Char) : Flush (label ++ rest) := by
  obtain ⟨c, hh, hc⟩ := h
  exact ⟨c, by rw [List.head?_append, hh]; rfl, hc⟩

def Tree.label : Tree → List Char
  | .leaf t => t.category.name.toList ++ ' ' :: t.text.toList
  | .node construct _ => construct.name.toList

theorem Tree.flush_label (tree : Tree) : Flush tree.label := by
  cases tree with
  | leaf t =>
    obtain ⟨hn, hs, _⟩ := t.category.name_word
    exact (Flush.of_not_mem hn hs).append _
  | node construct children =>
    obtain ⟨hn, hs, _⟩ := construct.name_word
    exact Flush.of_not_mem hn hs

theorem Tree.outlineLines_eq (depth : Nat) (tree : Tree) :
    tree.outlineLines depth =
      outlineLine depth tree.label :: forestOutlineLines (depth + 1) tree.children := by
  cases tree <;> rfl

theorem outlineLine_inj (hl : Flush label) (hl' : Flush label')
    (h : outlineLine depth label = outlineLine depth' label') :
    depth = depth' ∧ label = label' := by
  have hblank (n : Nat) : ∀ c ∈ List.replicate n ' ', (c == ' ') = true :=
    fun c hc => beq_iff_eq.2 (List.eq_of_mem_replicate hc)
  have hflush {l : List Char} (hl : Flush l) : ∀ c, l.head? = some c → ¬ (c == ' ') = true := by
    obtain ⟨c, hh, hc⟩ := hl
    intro d hd
    obtain rfl := Option.some.inj (hh.symm.trans hd)
    exact fun he => hc (beq_iff_eq.1 he)
  obtain ⟨hd, he⟩ := append_inj_of_head (hblank _) (hblank _) (hflush hl) (hflush hl') h
  have hlen := congrArg List.length hd
  rw [List.length_replicate, List.length_replicate] at hlen
  exact ⟨by omega, he⟩

theorem Token.unlined_of_label {t t' : Token} (h : (Tree.leaf t).label = (Tree.leaf t').label) :
    t.unlined = t'.unlined := by
  obtain ⟨hc, ht⟩ :=
    append_inj_of_mark t.category.name_word.2.1 t'.category.name_word.2.1 h
  have hlexeme : t.lexeme = t'.lexeme :=
    Lexeme.eq_of_text (Category.name_injective (String.toList_inj.1 hc))
      (String.toList_inj.1 ht)
  exact congrArg (Token.mk · 0) hlexeme

theorem Tree.label_leaf_ne_node (t : Token) (construct : Construct) (children : List Tree) :
    (Tree.leaf t).label ≠ (Tree.node construct children).label := by
  intro h
  apply construct.name_word.2.1
  rw [label, label] at h
  rw [← h]
  exact List.mem_append_right _ (List.mem_cons_self ..)

/-- Lines at which the trees of a depth are at their end: the next line, if any, stands higher. -/
def Higher (depth : Nat) (lines : List (List Char)) : Prop :=
  ∀ line, lines.head? = some line →
    ∃ above label, line = outlineLine above label ∧ above < depth ∧ Flush label

theorem Higher.nil (depth : Nat) : Higher depth [] := nofun

theorem Higher.forest (h : Higher depth rest) (trees : List Tree) :
    Higher (depth + 1) (forestOutlineLines depth trees ++ rest) := by
  intro line hl
  cases trees with
  | nil =>
    obtain ⟨above, label, he, ha, hf⟩ := h line hl
    exact ⟨above, label, he, by omega, hf⟩
  | cons tree trees =>
    rw [forestOutlineLines, tree.outlineLines_eq] at hl
    cases hl
    exact ⟨depth, tree.label, rfl, by omega, tree.flush_label⟩

theorem Higher.not_forest_cons (tree : Tree) (trees : List Tree) (rest : List (List Char)) :
    ¬ Higher depth (forestOutlineLines depth (tree :: trees) ++ rest) := by
  intro h
  rw [forestOutlineLines, tree.outlineLines_eq] at h
  obtain ⟨above, label, he, ha, hf⟩ := h _ rfl
  have := (outlineLine_inj tree.flush_label hf he).1
  omega

mutual

/-- A tree is read back from its lines up to the first line that stands no deeper. -/
theorem Tree.unlined_of_outlineLines {rest rest' : List (List Char)} :
    (tree tree' : Tree) → Higher (depth + 1) rest → Higher (depth + 1) rest' →
      tree.outlineLines depth ++ rest = tree'.outlineLines depth ++ rest' →
      tree.unlined = tree'.unlined ∧ rest = rest'
  | tree, tree', hr, hr', h => by
    rw [tree.outlineLines_eq, tree'.outlineLines_eq, List.cons_append, List.cons_append] at h
    obtain ⟨hline, hmore⟩ := List.cons.inj h
    have hlabel := (outlineLine_inj tree.flush_label tree'.flush_label hline).2
    match tree, tree' with
    | .leaf t, .leaf t' => exact ⟨congrArg Tree.leaf (Token.unlined_of_label hlabel), hmore⟩
    | .leaf t, .node .. => exact (Tree.label_leaf_ne_node _ _ _ hlabel).elim
    | .node .., .leaf t => exact (Tree.label_leaf_ne_node _ _ _ hlabel.symm).elim
    | .node construct children, .node construct' children' =>
      obtain rfl := Construct.name_injective (String.toList_inj.1 hlabel)
      obtain ⟨hc, he⟩ := forestUnlined_of_outlineLines children children' hr hr' hmore
      exact ⟨congrArg (Tree.node construct) hc, he⟩

theorem forestUnlined_of_outlineLines {rest rest' : List (List Char)} :
    (trees trees' : List Tree) → Higher depth rest → Higher depth rest' →
      forestOutlineLines depth trees ++ rest = forestOutlineLines depth trees' ++ rest' →
      forestUnlined trees = forestUnlined trees' ∧ rest = rest'
  | [], [], _, _, h => ⟨rfl, h⟩
  | [], tree' :: trees', hr, _, h => by
    rw [forestOutlineLines, List.nil_append] at h
    exact absurd (h ▸ hr) (Higher.not_forest_cons tree' trees' rest')
  | tree :: trees, [], _, hr', h => by
    rw [@forestOutlineLines.eq_1 depth, List.nil_append] at h
    exact absurd (h ▸ hr') (Higher.not_forest_cons tree trees rest)
  | tree :: trees, tree' :: trees', hr, hr', h => by
    rw [forestOutlineLines, forestOutlineLines, List.append_assoc, List.append_assoc] at h
    obtain ⟨hfirst, hmore⟩ :=
      Tree.unlined_of_outlineLines tree tree' (hr.forest trees) (hr'.forest trees') h
    obtain ⟨hrest, he⟩ := forestUnlined_of_outlineLines trees trees' hr hr' hmore
    exact ⟨congrArg₂ List.cons hfirst hrest, he⟩

end

theorem oneLine_outlineLine (h : '\n' ∉ label) : '\n' ∉ outlineLine depth label := by
  intro hm
  obtain hm | hm := List.mem_append.1 hm
  · cases List.eq_of_mem_replicate hm
  · exact h hm

theorem Tree.oneLine_label {tree : Tree} (h : ∀ t ∈ tree.tokens, t.OneLine) :
    '\n' ∉ tree.label := by
  cases tree with
  | leaf t =>
    intro hm
    obtain hm | hm := List.mem_append.1 hm
    · exact t.category.name_word.2.2 hm
    obtain hm | hm := List.mem_cons.1 hm
    · cases hm
    · exact h t (List.mem_singleton.2 rfl) hm
  | node construct children => exact construct.name_word.2.2

mutual

theorem Tree.oneLine_outlineLines : (tree : Tree) → (depth : Nat) →
    (∀ t ∈ tree.tokens, t.OneLine) → ∀ line ∈ tree.outlineLines depth, '\n' ∉ line
  | .leaf t, depth, h, line, hl => by
    obtain rfl := List.mem_singleton.1 hl
    exact oneLine_outlineLine (Tree.oneLine_label h)
  | .node construct children, depth, h, line, hl => by
    obtain rfl | hl := List.mem_cons.1 hl
    · exact oneLine_outlineLine construct.name_word.2.2
    · exact oneLine_forestOutlineLines children (depth + 1) h line hl

theorem oneLine_forestOutlineLines : (trees : List Tree) → (depth : Nat) →
    (∀ t ∈ forestTokens trees, t.OneLine) →
      ∀ line ∈ forestOutlineLines depth trees, '\n' ∉ line
  | [], _, _, _, hl => nomatch hl
  | tree :: trees, depth, h, line, hl => by
    rw [forestTokens] at h
    rw [forestOutlineLines] at hl
    obtain hl | hl := List.mem_append.1 hl
    · exact tree.oneLine_outlineLines depth (fun t ht => h t (List.mem_append_left _ ht)) line hl
    · exact oneLine_forestOutlineLines trees depth
        (fun t ht => h t (List.mem_append_right _ ht)) line hl

end

/-- Lines without line feeds of their own are told apart by the ones that end them. -/
theorem ended_lines_inj {lines lines' : List (List Char)} (h : ∀ line ∈ lines, '\n' ∉ line)
    (h' : ∀ line ∈ lines', '\n' ∉ line)
    (he : lines.flatMap (· ++ ['\n']) = lines'.flatMap (· ++ ['\n'])) : lines = lines' := by
  induction lines generalizing lines' with
  | nil =>
    cases lines' with
    | nil => rfl
    | cons line' lines' => simp at he
  | cons line lines ih =>
    cases lines' with
    | nil => simp at he
    | cons line' lines' =>
      rw [List.forall_mem_cons] at h h'
      simp only [List.flatMap_cons, List.append_assoc, List.singleton_append] at he
      obtain ⟨rfl, hmore⟩ := append_inj_of_mark h.1 h'.1 he
      exact congrArg _ (ih h.2 h'.2 hmore)

theorem length_ended_lines {lines : List (List Char)} (h : ∀ line ∈ lines, '\n' ∉ line) :
    (Text.lines (lines.flatMap (· ++ ['\n']))).length = lines.length := by
  induction lines with
  | nil => rfl
  | cons line lines ih =>
    rw [List.forall_mem_cons] at h
    have hends : Text.EndsLine (line ++ ['\n']) := .inr List.getLast?_concat
    rw [List.flatMap_cons, Text.lines_append hends, List.length_append, ih h.2,
      Text.length_lines hends, List.count_append, List.count_eq_zero.2 h.1, List.count_singleton,
      List.length_cons, Nat.add_comm]
    rfl

mutual

/-- The number of nodes and leaves of a tree. -/
def Tree.nodeCount : Tree → Nat
  | .leaf _ => 1
  | .node _ children => forestNodeCount children + 1

def forestNodeCount : List Tree → Nat
  | [] => 0
  | tree :: trees => tree.nodeCount + forestNodeCount trees

end

mutual

theorem Tree.length_outlineLines : (tree : Tree) → (depth : Nat) →
    (tree.outlineLines depth).length = tree.nodeCount
  | .leaf _, _ => rfl
  | .node _ children, depth =>
    congrArg (· + 1) (length_forestOutlineLines children (depth + 1))

theorem length_forestOutlineLines : (trees : List Tree) → (depth : Nat) →
    (forestOutlineLines depth trees).length = forestNodeCount trees
  | [], _ => rfl
  | tree :: trees, depth => by
    rw [forestOutlineLines, List.length_append, tree.length_outlineLines,
      length_forestOutlineLines trees, forestNodeCount]

end

mutual

theorem Tree.outlineLines_unlined : (tree : Tree) → (depth : Nat) →
    tree.unlined.outlineLines depth = tree.outlineLines depth
  | .leaf _, _ => rfl
  | .node construct children, depth =>
    congrArg (outlineLine depth construct.name.toList :: ·)
      (forestOutlineLines_unlined children (depth + 1))

theorem forestOutlineLines_unlined : (trees : List Tree) → (depth : Nat) →
    forestOutlineLines depth (forestUnlined trees) = forestOutlineLines depth trees
  | [], _ => rfl
  | tree :: trees, depth =>
    congrArg₂ (· ++ ·) (tree.outlineLines_unlined depth) (forestOutlineLines_unlined trees depth)

end

theorem Tree.outline_unlined (tree : Tree) : tree.unlined.outline = tree.outline := by
  rw [outline, outline, tree.outlineLines_unlined]

/-- An outline gives back its tree apart from the lines of the tokens, as long as no token goes
over a line end. -/
theorem Tree.unlined_of_outline {tree tree' : Tree} (h : ∀ t ∈ tree.tokens, t.OneLine)
    (h' : ∀ t ∈ tree'.tokens, t.OneLine) (he : tree.outline = tree'.outline) :
    tree.unlined = tree'.unlined := by
  have hlines : tree.outlineLines 0 = tree'.outlineLines 0 :=
    ended_lines_inj (tree.oneLine_outlineLines 0 h) (tree'.oneLine_outlineLines 0 h')
      (String.ofList_inj.1 he)
  have hread : tree.outlineLines 0 ++ [] = tree'.outlineLines 0 ++ [] := by rw [hlines]
  exact (tree.unlined_of_outlineLines tree' (.nil 1) (.nil 1) hread).1

theorem Tree.length_lines_outline {tree : Tree} (h : ∀ t ∈ tree.tokens, t.OneLine) :
    (Text.lines tree.outline.toList).length = tree.nodeCount := by
  rw [outline, String.toList_ofList, length_ended_lines (tree.oneLine_outlineLines 0 h),
    tree.length_outlineLines]

theorem parseText_of_tokens (h : (tokenizeText options text).result = .ok ts) :
    (parseText options text).result = (parse ts).result.mapError .grammatical := by
  obtain ⟨records, tokens, hs, ht, rfl⟩ := tokenizeText_eq_ok h
  simp only [parseText_result, hs, ht]

theorem tokens_of_parseText (h : (parseText options text).result = .ok tree) :
    (tokenizeText options text).result = .ok tree.tokens := by
  cases ht : (tokenizeText options text).result with
  | error e =>
    simp only [parseText, Traced.andThen, Traced.mapError, ht] at h
    cases h
  | ok ts =>
    rw [parseText_of_tokens ht] at h
    cases hp : (parse ts).result with
    | error e =>
      rw [hp] at h
      cases h
    | ok tree' =>
      rw [hp] at h
      cases h
      rw [tokens_of_parse hp]

theorem parseText_oneLine (h : (parseText options text).result = .ok tree) :
    ∀ t ∈ tree.tokens, t.OneLine :=
  tokenizeText_oneLine (tokens_of_parseText h)

/-- Trees of texts have one outline if and only if they differ at most in the lines of their tokens,
and an outline has a line for each node and each leaf of its tree. -/
theorem outline_unambiguous :
    (∀ options options' text text' tree tree',
      (parseText options text).result = .ok tree →
      (parseText options' text').result = .ok tree' →
      (tree.outline = tree'.outline ↔ tree.unlined = tree'.unlined)) ∧
    ∀ options text tree, (parseText options text).result = .ok tree →
      (Text.lines tree.outline.toList).length = tree.nodeCount := by
  refine ⟨fun options options' text text' tree tree' h h' => ⟨fun he => ?_, fun hu => ?_⟩,
    fun options text tree h => ?_⟩
  · exact Tree.unlined_of_outline (parseText_oneLine h) (parseText_oneLine h') he
  · rw [← tree.outline_unlined, hu, tree'.outline_unlined]
  · exact Tree.length_lines_outline (parseText_oneLine h)

/-- The tree of a class whose only string is blank, where `line` tells the line of each leaf. -/
def blankString (line : Nat → Nat) : Tree :=
  let leaf (index : Nat) (lexeme : Lexeme) : Tree := .leaf ⟨lexeme, line index⟩
  .node .class_
    [leaf 1 (.keyword .class_), leaf 2 (.identifier "A"), leaf 3 (.symbol '\x7b'),
     .node .subroutineDec
       [leaf 4 (.keyword .method), leaf 5 (.keyword .int), leaf 6 (.identifier "m"),
        leaf 7 (.symbol '('), .node .parameterList [], leaf 8 (.symbol ')'),
        .node .subroutineBody
          [leaf 9 (.symbol '\x7b'),
           .node .statements
             [.node .returnStatement
               [leaf 10 (.keyword .return_),
                .node .expression [.node .term [leaf 11 (.string "  ")]],
                leaf 12 (.symbol ';')]],
           leaf 13 (.symbol '\x7d')]],
     leaf 14 (.symbol '\x7d')]

def flatText : String := "class A \x7b method int m() \x7b return \"  \"; \x7d \x7d"

def flatTree : Tree := blankString fun _ => 1

def spreadText : String :=
  "class\nA\n\x7b //\r\nmethod\nint\nm\n(\n)\n\x7b\nreturn\n\"  \"\n;\n\x7d\n\x7d"

def spreadTree : Tree := blankString fun index => index

theorem spreadText_outline :
    (parseText ⟨false⟩ flatText).result = .ok flatTree ∧
      (parseText ⟨false⟩ spreadText).result = .ok spreadTree ∧
      flatTree.outline = spreadTree.outline ∧ flatTree.unlined = spreadTree.unlined ∧
      (Text.lines flatTree.outline.toList).length = 22 := by
  have hflat : (tokenizeText ⟨false⟩ flatText).result = .ok flatTree.tokens :=
    (tokenizeText_eq_outcome flatText).trans rfl
  have hspread : (tokenizeText ⟨false⟩ spreadText).result = .ok spreadTree.tokens :=
    (tokenizeText_eq_outcome spreadText).trans rfl
  have h : (parseText ⟨false⟩ flatText).result = .ok flatTree :=
    (parseText_of_tokens hflat).trans rfl
  have h' : (parseText ⟨false⟩ spreadText).result = .ok spreadTree :=
    (parseText_of_tokens hspread).trans rfl
  have he : flatTree.outline = spreadTree.outline := rfl
  obtain ⟨hread, hcount⟩ := outline_unambiguous
  exact ⟨h, h', he, (hread _ _ _ _ _ _ h h').1 he, (hcount _ _ _ h).trans rfl⟩

end Jack
