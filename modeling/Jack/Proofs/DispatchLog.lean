import Jack.Proofs.DispatchListing

namespace Jack

def Dispatch.IsOpened (dispatch : Dispatch) : Prop := ∃ rule line, dispatch = .opened rule line

/-- The record that an error leaves: a closer that does not match is recorded before the error. -/
def ParseError.closerRecord : ParseError → List Dispatch
  | .mismatchedCloser _ found => [.closer found.line]
  | _ => []

namespace Parser

/-- What a run adds to a trace: the constructs that it opens, and the record of its error. -/
def Records (trace : Array Dispatch) : EStateM.Result ParseError Cursor α → Prop
  | .ok _ after =>
    ∃ opened, (∀ d ∈ opened, d.IsOpened) ∧ after.trace.toList = trace.toList ++ opened
  | .error e after =>
    ∃ opened, (∀ d ∈ opened, d.IsOpened) ∧
      after.trace.toList = trace.toList ++ (opened ++ e.closerRecord)

def OpensOnly (p : Parser α) : Prop := ∀ cursor, Records cursor.trace (p cursor)

namespace OpensOnly

theorem pure (a : α) : OpensOnly (Pure.pure a) :=
  fun _ => ⟨[], nofun, (List.append_nil _).symm⟩

theorem fail (h : e.closerRecord = []) : OpensOnly (Parser.fail e : Parser α) :=
  fun _ => ⟨[], nofun, by rw [h, List.append_nil, List.append_nil]⟩

end OpensOnly

theorem Records.of_push {result : EStateM.Result ParseError Cursor α}
    (h : Records (trace.push (.opened rule line)) result) : Records trace result := by
  have hhead : Dispatch.IsOpened (.opened rule line) := ⟨rule, line, rfl⟩
  cases result with
  | ok a after =>
    obtain ⟨opened, ho, ht⟩ := h
    rw [Array.toList_push, List.append_assoc] at ht
    exact ⟨.opened rule line :: opened, List.forall_mem_cons.2 ⟨hhead, ho⟩, ht⟩
  | error e after =>
    obtain ⟨opened, ho, ht⟩ := h
    rw [Array.toList_push, List.append_assoc] at ht
    exact ⟨.opened rule line :: opened, List.forall_mem_cons.2 ⟨hhead, ho⟩, ht⟩

theorem Records.bind {p : Parser α} {f : α → Parser β} (hp : Records trace (p cursor))
    (hf : ∀ a after, p cursor = .ok a after → OpensOnly (f a)) :
    Records trace ((p >>= f) cursor) := by
  cases hr : p cursor with
  | error e mid =>
    rw [bind_error f hr]
    rwa [hr] at hp
  | ok a mid =>
    rw [bind_ok f hr]
    rw [hr] at hp
    obtain ⟨first, hfirst, ht⟩ := hp
    have h := hf a mid hr mid
    cases hs : f a mid with
    | error e after =>
      rw [hs] at h
      obtain ⟨second, hsecond, ht'⟩ := h
      refine ⟨first ++ second, List.forall_mem_append.2 ⟨hfirst, hsecond⟩, ?_⟩
      rw [ht', ht, List.append_assoc, List.append_assoc]
    | ok b after =>
      rw [hs] at h
      obtain ⟨second, hsecond, ht'⟩ := h
      refine ⟨first ++ second, List.forall_mem_append.2 ⟨hfirst, hsecond⟩, ?_⟩
      rw [ht', ht, List.append_assoc]

namespace OpensOnly

theorem bind {p : Parser α} {f : α → Parser β} (h : OpensOnly p) (hf : ∀ a, OpensOnly (f a)) :
    OpensOnly (p >>= f) := fun cursor => (h cursor).bind fun a _ _ => hf a

theorem comments : OpensOnly comments :=
  fun _ => ⟨[], nofun, (List.append_nil _).symm⟩

theorem expect (expected : Expected) : OpensOnly (Parser.expect expected) := by
  intro cursor
  obtain ⟨_ | ⟨t, rest⟩, trace⟩ := cursor
  · exact fail rfl _
  · rw [expect_cons]
    split
    · exact pure _ _
    · exact fail rfl _

theorem optionally {part : Parser (List Tree)} (h : OpensOnly part) :
    OpensOnly (Parser.optionally sign part) := by
  intro cursor
  rw [optionally_apply]
  split
  · exact h cursor
  · exact pure _ cursor

theorem arrange (layout : Layout) (trees : List Tree) :
    OpensOnly (ofExcept (layout.arrange trees)) := by
  cases h : layout.arrange trees with
  | ok arranged => exact pure _
  | error e =>
    obtain ⟨-, comma, -, -, rfl⟩ := Layout.arrange_eq_error h
    exact fail rfl

end OpensOnly

variable {readItems : Char → Parser (List Tree)}

theorem production_opensOnly (h : ∀ closer, OpensOnly (readItems closer))
    (production : Production) : OpensOnly (production.read readItems) := by
  induction production with
  | done => exact .pure _
  | token expected next ih =>
    apply OpensOnly.comments.bind
    intro before
    apply (OpensOnly.expect expected).bind
    intro leaf
    exact ih.bind fun _ => .pure _
  | run closer layout next ih =>
    apply (h closer).bind
    intro trees
    apply (OpensOnly.arrange layout trees).bind
    intro arranged
    apply (OpensOnly.expect _).bind
    intro leaf
    exact ih.bind fun _ => .pure _
  | optional sign part next ihp ihn =>
    apply ihp.optionally.bind
    intro front
    exact ihn.bind fun _ => .pure _
  | nested construct part next ihp ihn =>
    apply OpensOnly.comments.bind
    intro before
    apply ihp.bind
    intro children
    exact ihn.bind fun _ => .pure _

theorem item_records (h : ∀ closer, OpensOnly (readItems closer)) (head : Token)
    (rest : List Token) (cursor : Cursor) :
    (Records cursor.trace (item readItems head rest cursor) ∧
        ∀ after, item readItems head rest cursor ≠ .ok none after) ∨
      item readItems head rest cursor =
        .ok none { cursor with trace := cursor.trace.push (.closer head.line) } := by
  cases hc : Choice.of head (significant? rest) with
  | closer => exact .inr (item_closer hc cursor)
  | forbidden =>
    rw [item_forbidden hc]
    exact .inl ⟨OpensOnly.fail rfl cursor, nofun⟩
  | terminal =>
    rw [item_terminal hc]
    exact .inl ⟨⟨[], nofun, (List.append_nil _).symm⟩, nofun⟩
  | opens rule =>
    rw [item_opens hc]
    have hitem := (production_opensOnly h rule.production).bind
      fun trees => .pure (some (rule.build head trees))
    refine .inl ⟨(hitem ⟨rest, _⟩).of_push, fun after hn => ?_⟩
    obtain ⟨_, _, _, hn⟩ := bind_eq_ok hn
    cases hn

theorem items_opensOnly (limit : Nat) (closer : Char) : OpensOnly (items limit closer) := by
  induction limit generalizing closer with
  | zero => exact .fail rfl
  | succ limit ih =>
    intro cursor
    obtain ⟨_ | ⟨head, rest⟩, trace⟩ := cursor
    · exact OpensOnly.fail rfl _
    by_cases hh : head.isSymbol closer
    · rw [items_closer limit hh]
      exact OpensOnly.pure [] _
    rw [items_cons limit hh]
    obtain ⟨hr, hn⟩ | hr := item_records ih head rest ⟨head :: rest, trace⟩
    · refine hr.bind fun found after hf => ?_
      cases found with
      | none => exact absurd hf (hn after)
      | some trees => exact (ih closer).bind fun _ => .pure _
    · rw [bind_ok _ hr]
      exact ⟨[], nofun, Array.toList_push⟩

theorem classTree_opensOnly : OpensOnly classTree := by
  intro cursor
  rw [classTree_apply]
  have hclass := (production_opensOnly (items_opensOnly cursor.unread.length) .wholeClass).bind
    fun children => OpensOnly.comments.bind fun after =>
      .pure (Tree.node .class_ (children ++ after))
  exact hclass cursor

theorem program_opensOnly : OpensOnly program := by
  refine classTree_opensOnly.bind fun tree cursor => ?_
  obtain ⟨_ | ⟨t, rest⟩, trace⟩ := cursor
  · exact OpensOnly.pure tree _
  · exact OpensOnly.fail rfl _

end Parser

theorem parse_eq (ts : List Token) :
    parse ts =
      match Parser.program ⟨ts, #[]⟩ with
      | .ok tree after => ⟨.ok tree, after.trace.toList.map .dispatched ++
          [.parsed tree.children.length ts.length]⟩
      | .error e after => ⟨.error e, after.trace.toList.map .dispatched⟩ := by
  have hr : (Session.start ts).remaining = ts := rfl
  rw [parse, Session.parseProgram, Session.run, hr]
  cases Parser.program ⟨ts, #[]⟩ <;> rfl

/-- The log of a class is the preorder listing of its tree, and the log of a failure tells of the
constructs that were opened; after them a closer is recorded, at its line, if it does not match. -/
theorem dispatch_log (ts : List Token) :
    (∀ tree, (parse ts).result = .ok tree →
      (parse ts).log = tree.innerDispatches.map .dispatched ++
        [.parsed tree.children.length ts.length]) ∧
      ∀ e, (parse ts).result = .error e →
        ∃ opened, (∀ d ∈ opened, d.IsOpened) ∧
          (parse ts).log = (opened ++ e.closerRecord).map .dispatched := by
  rw [parse_eq]
  have ho := Parser.program_opensOnly ⟨ts, #[]⟩
  cases hr : Parser.program ⟨ts, #[]⟩ with
  | ok tree after =>
    refine ⟨fun tree' h => ?_, nofun⟩
    cases h
    dsimp only
    rw [Parser.classTree_trace (Parser.program_ok_iff.1 hr).1]
  | error e after =>
    refine ⟨nofun, fun e' h => ?_⟩
    cases h
    rw [hr] at ho
    obtain ⟨opened, hopened, ht⟩ := ho
    exact ⟨opened, hopened, congrArg (List.map _) ht⟩

def listedTree : Tree :=
  .node .class_
    [.leaf ⟨.keyword .class_, 1⟩, .leaf ⟨.identifier "A", 1⟩, .leaf ⟨.symbol '\x7b', 1⟩,
     .leaf ⟨.symbol '[', 2⟩,
     .node .expression [.node .term [.leaf ⟨.identifier "x", 2⟩]],
     .leaf ⟨.symbol ']', 2⟩,
     .node .letStatement
       [.leaf ⟨.keyword .let_, 3⟩, .leaf ⟨.identifier "y", 3⟩, .leaf ⟨.symbol '[', 3⟩,
        .node .expression
          [.node .term
            [.leaf ⟨.identifier "f", 4⟩, .leaf ⟨.symbol '(', 4⟩, .node .expressionList [],
             .leaf ⟨.symbol ')', 4⟩]],
        .leaf ⟨.symbol ']', 5⟩, .leaf ⟨.symbol '=', 5⟩,
        .node .expression [.node .term [.leaf ⟨.integer 1, 5⟩]],
        .leaf ⟨.symbol ';', 5⟩],
     .leaf ⟨.symbol '\x7d', 6⟩]

/-- A class in which a subscript meets a closing parenthesis. -/
def strayCloser : List Token :=
  [⟨.keyword .class_, 1⟩, ⟨.identifier "A", 1⟩, ⟨.symbol '\x7b', 1⟩, ⟨.symbol '[', 2⟩,
   ⟨.symbol ')', 3⟩]

theorem listedTree_log :
    (parse listedTree.tokens).result = .ok listedTree ∧
      (parse listedTree.tokens).log =
        [.dispatched (.opened .subscript 2), .dispatched (.opened .let_ 3),
          .dispatched (.opened .callTerm 4), .parsed 8 17] ∧
      (parse strayCloser).result = .error (.mismatchedCloser ']' ⟨.symbol ')', 3⟩) ∧
      ∃ opened, (∀ d ∈ opened, d.IsOpened) ∧
        (parse strayCloser).log = (opened ++ [.closer 3]).map .dispatched := by
  have h : (parse listedTree.tokens).result = .ok listedTree := rfl
  have h' : (parse strayCloser).result = .error (.mismatchedCloser ']' ⟨.symbol ')', 3⟩) := rfl
  exact ⟨h, (dispatch_log _).1 _ h, h', (dispatch_log _).2 _ h'⟩

end Jack
