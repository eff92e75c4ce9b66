import Jack.Proofs.Arrangement

namespace Jack

def leaves (word : List Token) : List Tree := word.map .leaf

mutual

/-- A word that is one item, and its trees, before the next token that is no comment. A bare
subscript has three trees, each other item has one. -/
inductive Item : List Token → List Tree → Option Token → Prop where
  | plain (h : Plain head next) : Item [head] [.leaf head] next
  | class_ (hh : Terminal (.keyword .class_) head) (hn : Spaced .identifier name)
      (ho : Spaced (.symbol '\x7b') opening) (hb : Run '\x7d' .spliced body members) :
      Item (head :: (name ++ (opening ++ body)))
        [.node .class_ (.leaf head :: (leaves name ++ (leaves opening ++ members)))] next
  | classVarDec (hh : Terminal (.keyword .static) head ∨ Terminal (.keyword .field) head)
      (hr : Run ';' .spliced word trees) :
      Item (head :: word) [.node .classVarDec (.leaf head :: trees)] next
  | subroutineDec
      (hh : Terminal (.keyword .constructor) head ∨ Terminal (.keyword .function) head ∨
        Terminal (.keyword .method) head)
      (ht : Spaced .returnType type) (hn : Spaced .identifier name)
      (ho : Spaced (.symbol '(') opening)
      (hp : Run ')' (.grouped .parameterList) parameters list)
      (hg : Gap gap) (hs : Terminal (.symbol '\x7b') start)
      (hb : Run '\x7d' .body body children) :
      Item (head :: (type ++ (name ++ (opening ++ (parameters ++ (gap ++ start :: body))))))
        [.node .subroutineDec (.leaf head :: (leaves type ++ (leaves name ++ (leaves opening ++
          (list ++ (leaves gap ++ [.node .subroutineBody (.leaf start :: children)]))))))] next
  | varDec (hh : Terminal (.keyword .var) head) (hr : Run ';' .spliced word trees) :
      Item (head :: word) [.node .varDec (.leaf head :: trees)] next
  | let_ (hh : Terminal (.keyword .let_) head) (hn : Spaced .identifier name)
      (he : Spaced (.symbol '=') equals) (hv : Run ';' .expression word value) :
      Item (head :: (name ++ (equals ++ word)))
        [.node .letStatement (.leaf head :: (leaves name ++ (leaves equals ++ value)))] next
  | letElement (hh : Terminal (.keyword .let_) head) (hn : Spaced .identifier name)
      (ho : Spaced (.symbol '[') opening) (hi : Run ']' .expression index position)
      (he : Spaced (.symbol '=') equals) (hv : Run ';' .expression word value) :
      Item (head :: (name ++ (opening ++ (index ++ (equals ++ word)))))
        [.node .letStatement (.leaf head :: (leaves name ++ (leaves opening ++
          (position ++ (leaves equals ++ value)))))] next
  | if_ (hh : Terminal (.keyword .if_) head) (ho : Spaced (.symbol '(') opening)
      (hc : Run ')' .expression word condition) (hs : Spaced (.symbol '\x7b') start)
      (hb : Run '\x7d' (.grouped .statements) block statements) (hn : NoElse next) :
      Item (head :: (opening ++ (word ++ (start ++ block))))
        [.node .ifStatement (.leaf head :: (leaves opening ++ (condition ++
          (leaves start ++ statements))))] next
  | ifElse (hh : Terminal (.keyword .if_) head) (ho : Spaced (.symbol '(') opening)
      (hc : Run ')' .expression word condition) (hs : Spaced (.symbol '\x7b') start)
      (hb : Run '\x7d' (.grouped .statements) block statements)
      (he : Spaced (.keyword .else_) otherwise) (hs' : Spaced (.symbol '\x7b') start')
      (hb' : Run '\x7d' (.grouped .statements) block' statements') :
      Item (head :: (opening ++ (word ++ (start ++ (block ++ (otherwise ++ (start' ++ block')))))))
        [.node .ifStatement (.leaf head :: (leaves opening ++ (condition ++ (leaves start ++
          (statements ++ (leaves otherwise ++ (leaves start' ++ statements')))))))] next
  | while_ (hh : Terminal (.keyword .while_) head) (ho : Spaced (.symbol '(') opening)
      (hc : Run ')' .expression word condition) (hs : Spaced (.symbol '\x7b') start)
      (hb : Run '\x7d' (.grouped .statements) block statements) :
      Item (head :: (opening ++ (word ++ (start ++ block))))
        [.node .whileStatement (.leaf head :: (leaves opening ++ (condition ++
          (leaves start ++ statements))))] next
  | do_ (hh : Terminal (.keyword .do_) head) (hn : Spaced .identifier name)
      (hq : Qualifier qualifier) (ho : Spaced (.symbol '(') opening)
      (ha : Run ')' .arguments word arguments) (hs : Spaced (.symbol ';') ending) :
      Item (head :: (name ++ (qualifier ++ (opening ++ (word ++ ending)))))
        [.node .doStatement (.leaf head :: (leaves name ++ (leaves qualifier ++ (leaves opening ++
          (arguments ++ leaves ending)))))] next
  | return_ (hh : Terminal (.keyword .return_) head) (hv : Run ';' .value word value) :
      Item (head :: word) [.node .returnStatement (.leaf head :: value)] next
  | parenthesized (hh : Terminal (.symbol '(') head) (he : Run ')' .expression word value) :
      Item (head :: word) [.node .term (.leaf head :: value)] next
  | call (hh : Terminal .identifier head) (hq : Qualifier qualifier)
      (ho : Spaced (.symbol '(') opening) (ha : Run ')' .arguments word arguments) :
      Item (head :: (qualifier ++ (opening ++ word)))
        [.node .term (.leaf head :: (leaves qualifier ++ (leaves opening ++ arguments)))] next
  | element (hh : Terminal .identifier head) (ho : Spaced (.symbol '[') opening)
      (hi : Run ']' .expression word index) :
      Item (head :: (opening ++ word)) [.node .term (.leaf head :: (leaves opening ++ index))] next
  | subscript (hh : Terminal (.symbol '[') head) (hi : Run ']' .expression word index) :
      Item (head :: word) (.leaf head :: index) next

inductive Items : List Token → List Tree → Option Token → Prop where
  | nil : Items [] [] next
  | cons (hi : Item word trees (following words next)) (hs : Items words more next) :
      Items (word ++ words) (trees ++ more) next

/-- A run of items and its closer. -/
inductive Run : Char → Layout → List Token → List Tree → Prop where
  | intro (hi : Items word items (some close)) (hc : Terminal (.symbol closer) close)
      (ha : Arranged layout items children) :
      Run closer layout (word ++ [close]) (children ++ [.leaf close])

end

/-- A tree of a class and the token list that it derives: comments, the class, and comments. -/
inductive Derives : Tree → List Token → Prop where
  | intro (hb : Gap before) (hi : Item word [.node .class_ children] none)
      (ha : Gap after) :
      Derives (.node .class_ (leaves before ++ (children ++ leaves after)))
        (before ++ (word ++ after))

end Jack
