import Terse.Emit.Code
import Terse.Proofs.Analysis.Lexical
import Terse.Proofs.JavaScript.Numeral

/-! The tokens of the text of an expression. -/
namespace Terse

open JavaScript (Mark)

/-- A name of the library is a path of names. -/
def Symbol.path (s : Symbol) : List (List Char) := s.code.toList.splitOn '.'

namespace JavaScript

def word (w : String) : Token := .word w.toList

def dotted : List (List Char) → List Token
  | [] => []
  | [w] => [.word w]
  | w :: ws => .word w :: .mark .dot :: dotted ws

def commas : List (List Token) → List Token
  | [] => []
  | [ts] => ts
  | ts :: tss => ts ++ .mark .comma :: commas tss

/-- Operators that stand before an expression. -/
inductive Sign where
  | minus
  | bang
deriving DecidableEq

def Sign.mark : Sign → Mark
  | minus => .minus
  | bang => .bang

def Sign.char : Sign → Char
  | minus => '-'
  | bang => '!'

def signed (sign : Option Sign) (ts : List Token) : List Token :=
  (sign.map fun s => .mark s.mark).toList ++ ts

def grouped (ts : List Token) : List Token := .mark .lparen :: (ts ++ [.mark .rparen])

/-- The product of the numbers from one on. -/
def factorialTokens (ts : List Token) : List Token :=
  [word "Array", .mark .dot, word "from", .mark .lparen, .mark .lbrace, word "length",
      .mark .colon] ++
    ts ++ [.mark .rbrace, .mark .comma, .mark .lparen, word "_", .mark .comma, word "i",
      .mark .rparen, .mark .arrow, word "i", .mark .plus, .number ['1'], .mark .rparen, .mark .dot,
      word "reduce", .mark .lparen, .mark .lparen, word "a", .mark .comma, word "b", .mark .rparen,
      .mark .arrow, word "a", .mark .times, word "b", .mark .comma, .number ['1'], .mark .rparen]

end JavaScript

def BinOp.mark : BinOp → Mark
  | add => .plus | sub => .minus | mul => .times | div => .divide | rem => .remainder
  | pow => .power | lt => .less | le => .lessEqual | eq => .equal | ne => .notEqual
  | ge => .greaterEqual | gt => .greater | or => .or | and => .and
  | other w => .other w.toList

namespace Node

open JavaScript

/-- The sign that the text of an expression starts with. -/
@[simp] def sign : Node → Option Sign
  | unary op e =>
    match op with
    | .neg => some .minus
    | .not => some .bang
    | .fact => none
    | _ => sign e
  | member object _ _ => sign object
  | subscript collection _ => sign collection
  | number a => if a.isNegative then some .minus else none
  | _ => none
termination_by structural n => n

/-- A whole number in decimal digits. -/
def isBare : Node → Bool
  | number (.int _) => true
  | _ => false

/-- The access to a field, which a whole number takes for its own places. -/
def accessTokens (object : Node) (ts : List JavaScript.Token) (name : List Char) :
    List JavaScript.Token :=
  match object with
  | number (.int n) => [glued (Number.int n).sizeChars name]
  | _ => ts ++ [.mark .dot, .word name]

mutual

/-- The tokens after the sign. -/
@[simp] def unsigned : Node → List JavaScript.Token
  | conditional test yes no =>
    grouped (grouped (signed test.sign (unsigned test)) ++ .mark .question ::
      (grouped (signed yes.sign (unsigned yes)) ++ .mark .colon ::
      grouped (signed no.sign (unsigned no))))
  | binary op left right =>
    let base := signed left.sign (unsigned left)
    grouped ((if op = .pow ∧ left.sign.isSome then grouped base else base) ++
      .mark op.mark :: signed right.sign (unsigned right))
  | unary op e =>
    match op with
    | .length => accessTokens e (unsigned e) "length".toList
    | .incr => unsigned e ++ [.mark .increment]
    | .decr => unsigned e ++ [.mark .decrement]
    | .fact => factorialTokens (signed e.sign (unsigned e))
    | _ => grouped (signed e.sign (unsigned e))
  | array es => .mark .lbracket :: (commas (unsignedAll es) ++ [.mark .rbracket])
  | dict es => .mark .lbrace :: (commas (unsignedAll es) ++ [.mark .rbrace])
  | dictItem key e =>
    .string (Text.ofString key).keyChars :: .mark .colon :: signed e.sign (unsigned e)
  | member object access name =>
    if access = "?." then unsigned object ++ [.mark .optionalDot, .word name.toList]
    else accessTokens object (unsigned object) name.toList
  | subscript collection index =>
    unsigned collection ++
      .mark .lbracket :: (signed index.sign (unsigned index) ++ [.mark .rbracket])
  | call f args => unsigned f ++ .mark .lparen :: (commas (unsignedAll args) ++ [.mark .rparen])
  | number a => [a.sizeToken]
  | string t => [.string t.literalChars]
  | boolean b => [word (if b then "true" else "false")]
  | symbol s => dotted s.path
  | _ => []
termination_by structural n => n

@[simp] def unsignedAll : List Node → List (List JavaScript.Token)
  | [] => []
  | e :: es => signed e.sign (unsigned e) :: unsignedAll es
termination_by structural es => es

end

def tokens (e : Node) : List JavaScript.Token := signed e.sign e.unsigned

end Node

namespace JavaScript

variable {c : Char} {cs rest : List Char}

theorem apart_cons (hc : isWordChar c = false) (hp : c ≠ '+') (hm : c ≠ '-') : Apart (c :: cs) where
  head d hd := by
    obtain rfl := Option.some.inj hd
    exact hc
  sign h hsign := by
    obtain ⟨rfl, -⟩ := List.cons.inj h
    exact absurd hsign (by simp [hp, hm])

/-- A sign that is doubled belongs to no number. -/
theorem apart_doubled (hc : isWordChar c = false) : Apart (c :: c :: cs) where
  head d hd := by
    obtain rfl := Option.some.inj hd
    exact hc
  sign h _ := by
    obtain ⟨-, h⟩ := List.cons.inj h
    obtain ⟨rfl, -⟩ := List.cons.inj h
    exact isDigit_eq_false hc

theorem apart_nil : Apart [] where
  head d hd := by simp at hd
  sign h := by simp at h

/-- What the text of an expression can start with, its sign apart. -/
def isOpening (c : Char) : Bool := isWordChar c || c = '(' || c = '[' || c = '\x7b' || c = '"'

/-- A text is read as some tokens, whatever comes after; a whole number may take a point for its
own. -/
structure Lexes (bare : Bool) (cs : List Char) (ts : List Token) : Prop where
  opening : ∃ c ∈ cs.head?, isOpening c
  lex {rest : List Char} : Apart rest → (bare → rest.head? ≠ some '.') →
    lex (cs ++ rest) = ts ++ lex rest

/-- The text of an expression, its sign and the rest. -/
def Spells (bare : Bool) (text : String) (sign : Option Sign) (ts : List Token) : Prop :=
  ∃ cs, text.toList = (sign.map Sign.char).toList ++ cs ∧ Lexes bare cs ts

/-! ### Single marks -/

theorem lex_lparen : lex ('(' :: rest) = .mark .lparen :: lex rest := lex_mark rfl rfl rfl

theorem lex_rparen : lex (')' :: rest) = .mark .rparen :: lex rest := lex_mark rfl rfl rfl

theorem lex_lbracket : lex ('[' :: rest) = .mark .lbracket :: lex rest := lex_mark rfl rfl rfl

theorem lex_rbracket : lex (']' :: rest) = .mark .rbracket :: lex rest := lex_mark rfl rfl rfl

theorem lex_lbrace : lex ('\x7b' :: rest) = .mark .lbrace :: lex rest := lex_mark rfl rfl rfl

theorem lex_rbrace : lex ('\x7d' :: rest) = .mark .rbrace :: lex rest := lex_mark rfl rfl rfl

theorem lex_comma : lex (',' :: rest) = .mark .comma :: lex rest := lex_mark rfl rfl rfl

theorem lex_colon : lex (':' :: rest) = .mark .colon :: lex rest := lex_mark rfl rfl rfl

theorem lex_increment : lex ('+' :: '+' :: rest) = .mark .increment :: lex rest :=
  lex_mark rfl rfl rfl

theorem lex_decrement : lex ('-' :: '-' :: rest) = .mark .decrement :: lex rest :=
  lex_mark rfl rfl rfl

theorem lex_optionalDot : lex ('?' :: '.' :: rest) = .mark .optionalDot :: lex rest :=
  lex_mark rfl rfl rfl

/-- A mark with a space after it. -/
theorem lex_spaced {c : Char} {cs text : List Char} {m : Mark} (hc : isMarkStart c)
    (h : mark? (c :: cs) = some (text, m)) (hrest : cs.drop (text.length - 1) = ' ' :: rest) :
    lex (c :: cs) = .mark m :: lex rest := by
  rw [lex_mark hc h hrest, lex_space]

theorem lex_question : lex ('?' :: ' ' :: rest) = .mark .question :: lex rest :=
  lex_spaced rfl rfl rfl

theorem lex_arrow : lex ('=' :: '>' :: rest) = .mark .arrow :: lex rest := lex_mark rfl rfl rfl

theorem ne_of_isOpening {d : Char} (hc : isOpening c) (hd : isOpening d = false) : c ≠ d := by
  rintro rfl
  rw [hc] at hd
  contradiction

/-- A sign is a token of its own before what an expression can start with. -/
theorem lex_sign {s : Sign} (h : ∃ c ∈ cs.head?, isOpening c) :
    lex (s.char :: cs) = .mark s.mark :: lex cs := by
  obtain ⟨c, hc, ho⟩ := h
  cases cs with
  | nil => contradiction
  | cons d cs =>
    obtain rfl := Option.some.inj hc
    have hminus : d ≠ '-' := ne_of_isOpening ho (by decide)
    have hequal : d ≠ '=' := ne_of_isOpening ho (by decide)
    have hm : mark? ('-' :: d :: cs) = some (['-'], .minus) := by
      simp [mark?, marks, hminus.symm, hequal.symm]
    have hb : mark? ('!' :: d :: cs) = some (['!'], .bang) := by
      simp [mark?, marks, hequal.symm]
    cases s with
    | minus => exact lex_mark rfl hm rfl
    | bang => exact lex_mark rfl hb rfl

/-- A name of the language is one word. -/
theorem lex_name {name : List Char} (hname : IsName name) (hrest : Apart rest) :
    lex (name ++ rest) = .word name :: lex rest := by
  obtain ⟨c, cs, rfl, hc, hcs⟩ := hname
  exact lex_word (isWordStart_of_isLetter hc)
    (fun d hd => isWordChar_of_isWordChar (hcs d hd)) hrest

/-- A letter after a point belongs to a name. -/
theorem lex_dot {name : List Char} (hname : IsName name) (hrest : Apart rest) :
    lex ('.' :: (name ++ rest)) = .mark .dot :: .word name :: lex rest := by
  have hlex := lex_name hname hrest
  obtain ⟨c, cs, rfl, hc, -⟩ := hname
  have hne : '.' ≠ c := by
    rintro rfl
    contradiction
  have hm : mark? ('.' :: c :: (cs ++ rest)) = some (['.'], .dot) := by
    simp [mark?, marks, hne]
  rw [List.cons_append] at hlex ⊢
  rw [lex_mark rfl hm rfl, ← hlex]
  rfl

/-! ### Expressions -/

variable {bare : Bool} {text : String} {sign : Option Sign} {ts : List Token}

theorem Spells.lex (h : Spells bare text sign ts) (hrest : Apart rest)
    (hdot : bare → rest.head? ≠ some '.') :
    lex (text.toList ++ rest) = signed sign ts ++ lex rest := by
  obtain ⟨cs, htext, hopening, hlex⟩ := h
  rw [htext, List.append_assoc]
  cases sign with
  | none => exact hlex hrest hdot
  | some s =>
    have hhead : ∃ c ∈ (cs ++ rest).head?, isOpening c := by
      obtain ⟨c, hc, ho⟩ := hopening
      exact ⟨c, by simp_all, ho⟩
    have hsigned : signed (some s) ts = .mark s.mark :: ts := rfl
    rw [hsigned, List.cons_append, ← hlex hrest hdot]
    exact lex_sign hhead

/-- What no token goes on with, be it a number. -/
def isStop (c : Char) : Bool := !isWordChar c && c ≠ '+' && c ≠ '-' && c ≠ '.'

/-- A character that no token goes on with may follow any expression. -/
theorem Spells.before (h : Spells bare text sign ts) (c : Char) (hc : isStop c) :
    JavaScript.lex (text.toList ++ c :: rest) = signed sign ts ++ JavaScript.lex (c :: rest) := by
  simp only [isStop, Bool.and_eq_true, Bool.not_eq_true', decide_eq_true_eq] at hc
  obtain ⟨⟨⟨hword, hplus⟩, hminus⟩, hdot⟩ := hc
  exact h.lex (apart_cons hword hplus hminus) (by simp [hdot])

/-- The text starts with a sign exactly if the expression has one. -/
theorem Spells.startsWithSign (h : Spells bare text sign ts) :
    startsWithSign text = sign.isSome := by
  obtain ⟨cs, htext, ⟨c, hc, ho⟩, -⟩ := h
  unfold Terse.startsWithSign
  rw [htext]
  cases sign with
  | some s => cases s <;> rfl
  | none =>
    have hminus : c ≠ '-' := ne_of_isOpening ho (by decide)
    have hbang : c ≠ '!' := ne_of_isOpening ho (by decide)
    cases cs with
    | nil => contradiction
    | cons d cs =>
      obtain rfl := Option.some.inj hc
      simp [hminus, hbang]

/-- A text without a sign. -/
theorem spells_of_lex (hopening : ∃ c ∈ text.toList.head?, isOpening c)
    (h : ∀ rest, Apart rest → (bare → rest.head? ≠ some '.') →
      lex (text.toList ++ rest) = ts ++ lex rest) :
    Spells bare text none ts :=
  ⟨text.toList, rfl, hopening, fun hrest hdot => h _ hrest hdot⟩

theorem spells_conditional {b₁ b₂ b₃ : Bool} {test yes no : String} {s₁ s₂ s₃ : Option Sign}
    {t₁ t₂ t₃ : List Token} (htest : Spells b₁ test s₁ t₁) (hyes : Spells b₂ yes s₂ t₂)
    (hno : Spells b₃ no s₃ t₃) :
    Spells bare ("((" ++ test ++ ") ? (" ++ yes ++ ") : (" ++ no ++ "))") none
      (grouped (grouped (signed s₁ t₁) ++ .mark .question ::
        (grouped (signed s₂ t₂) ++ .mark .colon :: grouped (signed s₃ t₃)))) := by
  refine spells_of_lex ⟨'(', by simp, rfl⟩ fun rest _ _ => ?_
  simp [grouped, lex_lparen, lex_rparen, lex_space, lex_question, lex_colon,
    htest.before ')' (by decide), hyes.before ')' (by decide), hno.before ')' (by decide)]

theorem lex_operator {op : BinOp} (h : op ∈ BinOp.known) :
    lex (' ' :: ((respell op.word).toList ++ ' ' :: rest)) = .mark op.mark :: lex rest := by
  simp only [BinOp.known, List.mem_cons, List.not_mem_nil, or_false] at h
  rw [lex_space]
  obtain rfl | rfl | rfl | rfl | rfl | rfl | rfl | rfl | rfl | rfl | rfl | rfl | rfl | rfl := h
  all_goals exact lex_spaced rfl rfl rfl

theorem respell_eq_power : ∀ op ∈ BinOp.known, respell op.word = "**" ↔ op = .pow := by decide

/-- A binary operation is put in parentheses, and so is a base with a sign. -/
theorem spells_binary {op : BinOp} {b₁ b₂ : Bool} {left right : String} {s₁ s₂ : Option Sign}
    {t₁ t₂ : List Token} (hop : op ∈ BinOp.known) (hl : Spells b₁ left s₁ t₁)
    (hr : Spells b₂ right s₂ t₂) :
    Spells bare (binaryCode (respell op.word) left right) none
      (grouped ((if op = .pow ∧ s₁.isSome then grouped (signed s₁ t₁) else signed s₁ t₁) ++
        .mark op.mark :: signed s₂ t₂)) := by
  have hwrap : (respell op.word = "**" ∧ startsWithSign left) ↔ (op = .pow ∧ s₁.isSome) := by
    rw [respell_eq_power op hop, hl.startsWithSign]
  unfold binaryCode
  simp only [hwrap]
  refine spells_of_lex ⟨'(', by simp, rfl⟩ fun rest _ _ => ?_
  split
  · simp [grouped, lex_lparen, lex_rparen, lex_operator hop, hl.before ')' (by decide),
      hr.before ')' (by decide)]
  · simp [grouped, lex_lparen, lex_rparen, lex_operator hop, hl.before ' ' (by decide),
      hr.before ')' (by decide)]

theorem spells_signed {s : Sign} (op : String) {b : Bool} (hop : op.toList = [s.char])
    (h : Spells bare text sign ts) :
    Spells b (op ++ "(" ++ text ++ ")") (some s) (grouped (signed sign ts)) := by
  refine ⟨'(' :: (text.toList ++ [')']), by simp [hop], ⟨'(', rfl, rfl⟩, fun _ _ => ?_⟩
  simp [grouped, lex_lparen, lex_rparen, h.before ')' (by decide)]

/-- A text with more after it that the same token does not go on with. -/
theorem Spells.append {more : String} {us : List Token} {b : Bool} (h : Spells bare text sign ts)
    (hmore : ∀ rest, Apart rest → Apart (more.toList ++ rest) ∧
      (bare → (more.toList ++ rest).head? ≠ some '.') ∧
      JavaScript.lex (more.toList ++ rest) = us ++ JavaScript.lex rest) :
    Spells b (text ++ more) sign (ts ++ us) := by
  obtain ⟨cs, htext, ⟨c, hc, ho⟩, hlex⟩ := h
  refine ⟨cs ++ more.toList, by simp [htext], ⟨c, by simp_all, ho⟩, fun hrest _ => ?_⟩
  obtain ⟨happart, hdot, hmore⟩ := hmore _ hrest
  rw [List.append_assoc, hlex happart hdot, hmore, List.append_assoc]

/-- A point and a name after anything but a whole number. -/
theorem Spells.access {name : String} {b : Bool} (h : Spells false text sign ts)
    (hname : IsName name.toList) :
    Spells b (text ++ ("." ++ name)) sign (ts ++ [.mark .dot, .word name.toList]) := by
  refine h.append fun rest hrest => ?_
  have htoList : ("." ++ name).toList ++ rest = '.' :: (name.toList ++ rest) := by simp
  rw [htoList]
  exact ⟨apart_cons (by decide) (by decide) (by decide), by simp, lex_dot hname hrest⟩

theorem Spells.optionalAccess {name : String} {b : Bool} (h : Spells bare text sign ts)
    (hname : IsName name.toList) :
    Spells b (text ++ ("?." ++ name)) sign (ts ++ [.mark .optionalDot, .word name.toList]) := by
  refine h.append fun rest hrest => ?_
  have htoList : ("?." ++ name).toList ++ rest = '?' :: '.' :: (name.toList ++ rest) := by simp
  rw [htoList, lex_optionalDot, lex_name hname hrest]
  exact ⟨apart_cons (by decide) (by decide) (by decide), by simp, rfl⟩

theorem Spells.increment {b : Bool} (h : Spells bare text sign ts) :
    Spells b (text ++ "++") sign (ts ++ [.mark .increment]) :=
  h.append fun _ _ => ⟨apart_doubled (by decide), by simp, lex_increment⟩

theorem Spells.decrement {b : Bool} (h : Spells bare text sign ts) :
    Spells b (text ++ "--") sign (ts ++ [.mark .decrement]) :=
  h.append fun _ _ => ⟨apart_doubled (by decide), by simp, lex_decrement⟩

theorem Spells.index {index : String} {b b' : Bool} {s : Option Sign} {us : List Token}
    (h : Spells bare text sign ts) (hi : Spells b' index s us) :
    Spells b (text ++ ("[" ++ index ++ "]")) sign
      (ts ++ .mark .lbracket :: (signed s us ++ [.mark .rbracket])) := by
  refine h.append fun rest _ => ?_
  have htoList : ("[" ++ index ++ "]").toList ++ rest = '[' :: (index.toList ++ ']' :: rest) := by
    simp
  rw [htoList, lex_lbracket, hi.before ']' (by decide), lex_rbracket]
  exact ⟨apart_cons (by decide) (by decide) (by decide), by simp, by simp⟩

theorem toList_text (a : Number) :
    a.text.toList = ((Node.sign (.number a)).map Sign.char).toList ++ a.sizeChars := by
  rw [Number.text, String.toList_ofList, Number.chars_eq, Node.sign]
  cases a.isNegative <;> rfl

theorem isOpening_of_isWordChar (h : isWordChar c) : isOpening c := by simp [isOpening, h]

theorem spells_number (a : Number) :
    Spells (Node.isBare (.number a)) a.text (Node.sign (.number a)) [a.sizeToken] := by
  obtain ⟨c, hc, hword⟩ := a.head_sizeChars
  refine ⟨a.sizeChars, toList_text a, ⟨c, hc, isOpening_of_isWordChar hword⟩, fun hrest hdot =>
    lex_sizeChars hrest ?_⟩
  rintro n rfl
  exact hdot rfl

theorem spells_glued (n : Int) {name : String} {b : Bool} (hname : IsName name.toList) :
    Spells b ((Number.int n).text ++ ("." ++ name)) (Node.sign (.number (.int n)))
      [glued (Number.int n).sizeChars name.toList] := by
  obtain ⟨c, hc, hword⟩ := (Number.int n).head_sizeChars
  refine ⟨(Number.int n).sizeChars ++ '.' :: name.toList, by simp [toList_text],
    ⟨c, by simp_all, isOpening_of_isWordChar hword⟩, fun hrest _ => ?_⟩
  rw [List.append_assoc, List.cons_append, lex_glued (Number.isWhole_sizeChars n) hname hrest]
  rfl

theorem spells_string (t : Text) {b : Bool} : Spells b t.literal none [.string t.literalChars] := by
  refine spells_of_lex ⟨'"', by simp [Text.literal, Text.literalChars], rfl⟩ fun rest _ _ => ?_
  simp [Text.literal, lex_literalChars]

theorem spells_name {b : Bool} (h : IsName text.toList) :
    Spells b text none [.word text.toList] := by
  refine spells_of_lex ?_ fun _ hrest _ => lex_name h hrest
  have hword := isWordChar_of_isName h
  obtain ⟨c, cs, htext, -, -⟩ := h
  rw [htext] at hword ⊢
  exact ⟨c, rfl, isOpening_of_isWordChar (hword c List.mem_cons_self)⟩

theorem isName_of_all {cs : List Char} (h : Lexer.isLetter c && cs.all Lexer.isWordChar) :
    IsName (c :: cs) := by
  rw [Bool.and_eq_true, List.all_eq_true] at h
  exact ⟨c, cs, rfl, h.1, h.2⟩

theorem spells_boolean (v : Bool) {b : Bool} :
    Spells b (if v then "true" else "false") none [word (if v then "true" else "false")] := by
  cases v
  · exact spells_name (isName_of_all rfl)
  · exact spells_name (isName_of_all rfl)

theorem toList_code {s : Symbol} (h : s.isIntrinsic = false) :
    s.code.toList = s.name.toList ++ '_' :: Nat.toDigits 10 s.uid := by
  simp [Symbol.code, Symbol.target?, h, toString, String.append_assoc]

theorem isName_code {s : Symbol} (h : s.isIntrinsic = false) (hname : IsName s.name.toList) :
    IsName s.code.toList := by
  rw [toList_code h]
  obtain ⟨c, cs, hcs, hc, hword⟩ := hname
  refine ⟨c, cs ++ '_' :: Nat.toDigits 10 s.uid, by simp [hcs], hc, ?_⟩
  refine List.forall_mem_append.2 ⟨hword, List.forall_mem_cons.2 ⟨rfl, fun d hd => ?_⟩⟩
  simp [Lexer.isWordChar, (isDigits_toDigits s.uid).2 d hd]

theorem path_code {s : Symbol} (h : s.isIntrinsic = false) (hname : IsName s.name.toList) :
    s.path = [s.code.toList] := by
  refine List.splitOn_eq_singleton fun hdot => ?_
  have hword := isWordChar_of_isName (isName_code h hname) _ hdot
  contradiction

/-- The library is two objects with their fields. -/
theorem path_library {s : Symbol} (h : s ∈ Symbol.library) :
    ∃ owner field : String, owner ∈ ["Math", "console"] ∧ s.code = owner ++ ("." ++ field) ∧
      s.path = [owner.toList, field.toList] ∧ IsName field.toList := by
  simp only [Symbol.library, List.mem_cons, List.not_mem_nil, or_false] at h
  obtain rfl | rfl | rfl | rfl | rfl | rfl | rfl := h
  · exact ⟨"Math", "PI", by simp, rfl, by decide, isName_of_all rfl⟩
  · exact ⟨"Math", "sin", by simp, rfl, by decide, isName_of_all rfl⟩
  · exact ⟨"Math", "cos", by simp, rfl, by decide, isName_of_all rfl⟩
  · exact ⟨"Math", "exp", by simp, rfl, by decide, isName_of_all rfl⟩
  · exact ⟨"Math", "log", by simp, rfl, by decide, isName_of_all rfl⟩
  · exact ⟨"Math", "hypot", by simp, rfl, by decide, isName_of_all rfl⟩
  · exact ⟨"console", "log", by simp, rfl, by decide, isName_of_all rfl⟩

theorem spells_symbol {s : Symbol} {b : Bool} (h : s.Lexical) :
    Spells b s.code none (dotted s.path) := by
  obtain h | ⟨h, hname⟩ := h
  · obtain ⟨owner, field, howner, hcode, hpath, hfield⟩ := path_library h
    have hname : IsName owner.toList := by
      simp only [List.mem_cons, List.not_mem_nil, or_false] at howner
      obtain rfl | rfl := howner <;> exact isName_of_all rfl
    rw [hcode, hpath]
    exact (spells_name hname).access hfield
  · rw [path_code h hname]
    exact spells_name (isName_code h hname)

/-- The text of a node is read as its tokens. No point may come after an entry. -/
def Spelled (k : Node.ExpSort) (e : Node) : Prop :=
  Spells (match k with | .value => e.isBare | .entry => true) e.code e.sign e.unsigned

/-- Expressions between commas keep their tokens apart. -/
theorem lex_commaJoin {k : Node.ExpSort} {es : List Node} (h : ∀ e ∈ es, Spelled k e) (c : Char)
    (hc : isStop c) :
    lex ((commaJoin (Node.codes es)).toList ++ c :: rest) =
      commas (Node.unsignedAll es) ++ lex (c :: rest) := by
  induction es with
  | nil => rfl
  | cons e es ih =>
    obtain ⟨he, hes⟩ := List.forall_mem_cons.1 h
    cases es with
    | nil =>
      have hone : commaJoin (Node.codes [e]) = e.code := by simp [Node.codes, commaJoin]
      rw [hone]
      exact he.before c hc
    | cons e' es =>
      have hjoin : (commaJoin (Node.codes (e :: e' :: es))).toList ++ c :: rest =
          e.code.toList ++
            ',' :: ' ' :: ((commaJoin (Node.codes (e' :: es))).toList ++ c :: rest) := by
        simp [Node.codes, commaJoin]
      rw [hjoin, he.before ',' (by decide), lex_comma, lex_space, ih hes]
      simp [Node.unsignedAll, commas]

theorem spells_array {es : List Node} {b : Bool} (h : ∀ e ∈ es, Spelled .value e) :
    Spells b ("[" ++ commaJoin (Node.codes es) ++ "]") none
      (.mark .lbracket :: (commas (Node.unsignedAll es) ++ [.mark .rbracket])) := by
  refine spells_of_lex ⟨'[', by simp, rfl⟩ fun rest _ _ => ?_
  simp [lex_lbracket, lex_rbracket, lex_commaJoin h ']' (by decide)]

theorem spells_dict {es : List Node} {b : Bool} (h : ∀ e ∈ es, Spelled .entry e) :
    Spells b ("\x7b" ++ commaJoin (Node.codes es) ++ "\x7d") none
      (.mark .lbrace :: (commas (Node.unsignedAll es) ++ [.mark .rbrace])) := by
  refine spells_of_lex ⟨'\x7b', by simp, rfl⟩ fun rest _ _ => ?_
  simp [lex_lbrace, lex_rbrace, lex_commaJoin h '\x7d' (by decide)]

theorem Spells.call {es : List Node} {b : Bool} (h : Spells bare text sign ts)
    (hes : ∀ e ∈ es, Spelled .value e) :
    Spells b (text ++ ("(" ++ commaJoin (Node.codes es) ++ ")")) sign
      (ts ++ .mark .lparen :: (commas (Node.unsignedAll es) ++ [.mark .rparen])) := by
  refine h.append fun rest _ => ?_
  have htoList : ("(" ++ commaJoin (Node.codes es) ++ ")").toList ++ rest =
      '(' :: ((commaJoin (Node.codes es)).toList ++ ')' :: rest) := by simp
  rw [htoList, lex_lparen, lex_commaJoin hes ')' (by decide), lex_rparen]
  exact ⟨apart_cons (by decide) (by decide) (by decide), by simp, by simp⟩

theorem spells_dictItem {key : String} (h : Spells bare text sign ts) :
    Spells true (keyLiteral key ++ ": " ++ text) none
      (.string (Text.ofString key).keyChars :: .mark .colon :: signed sign ts) := by
  refine spells_of_lex ⟨'"', ?_, rfl⟩ fun rest hrest hdot => ?_
  · simp [keyLiteral, Text.keyChars]
  · simp [keyLiteral, lex_keyChars, lex_colon, lex_space, h.lex hrest fun _ => hdot rfl]

theorem lex_one (c : Char) (hc : isStop c) :
    lex ('1' :: c :: rest) = .number ['1'] :: lex (c :: rest) := by
  simp only [isStop, Bool.and_eq_true, Bool.not_eq_true', decide_eq_true_eq] at hc
  obtain ⟨⟨⟨hword, hplus⟩, hminus⟩, hdot⟩ := hc
  exact lex_numeral (isWhole_singleton rfl) (.inl rfl) (.inl rfl) (apart_cons hword hplus hminus)
    (by simp [hdot])

/-- A word of the template, before something that ends it. -/
theorem lex_template (w : String) (hw : w.toList.head?.any isWordStart ∧ w.toList.all isWordChar)
    (c : Char) (hc : isWordChar c = false ∧ c ≠ '+' ∧ c ≠ '-') :
    lex (w.toList ++ c :: rest) = word w :: lex (c :: rest) := by
  obtain ⟨hhead, hall⟩ := hw
  unfold word
  cases hcs : w.toList with
  | nil => simp [hcs] at hhead
  | cons d ds =>
    rw [hcs] at hhead hall
    obtain ⟨-, hds⟩ := List.forall_mem_cons.1 (List.all_eq_true.1 hall)
    exact lex_word hhead hds (apart_cons hc.1 hc.2.1 hc.2.2)

theorem lex_factorial_head (cs : List Char) : lex ("Array.from(\x7b length: ".toList ++ cs) =
    [word "Array", .mark .dot, word "from", .mark .lparen, .mark .lbrace, word "length",
      .mark .colon] ++ lex cs := by
  have hsplit : "Array.from(\x7b length: ".toList ++ cs = "Array".toList ++ '.' :: ("from".toList ++
    '(' :: '\x7b' :: ' ' :: ("length".toList ++ ':' :: ' ' :: cs)) := rfl
  have hfrom : IsName "from".toList := isName_of_all rfl
  rw [hsplit, lex_template "Array" (by decide) '.' (by decide),
    lex_dot hfrom (apart_cons (by decide) (by decide) (by decide)), lex_lparen, lex_lbrace,
    lex_space, lex_template "length" (by decide) ':' (by decide), lex_colon, lex_space]
  rfl

/-- The fixed text after the operand of a factorial, with two functions in it. -/
theorem lex_factorial_tail (cs : List Char) :
    lex (" \x7d, (_, i) => i + 1).reduce((a, b) => a * b, 1)".toList ++ cs) =
      [.mark .rbrace, .mark .comma, .mark .lparen, word "_", .mark .comma, word "i",
      .mark .rparen, .mark .arrow, word "i", .mark .plus, .number ['1'], .mark .rparen, .mark .dot,
      word "reduce", .mark .lparen, .mark .lparen, word "a", .mark .comma, word "b", .mark .rparen,
      .mark .arrow, word "a", .mark .times, word "b", .mark .comma, .number ['1'], .mark .rparen] ++
      lex cs := by
  have hplus (cs : List Char) : lex ('+' :: ' ' :: cs) = .mark .plus :: lex cs :=
    lex_spaced rfl rfl rfl
  have htimes (cs : List Char) : lex ('*' :: ' ' :: cs) = .mark .times :: lex cs :=
    lex_spaced rfl rfl rfl
  have hsplit : " \x7d, (_, i) => i + 1).reduce((a, b) => a * b, 1)".toList ++ cs =
      ' ' :: '\x7d' :: ',' :: ' ' :: '(' :: ("_".toList ++ ',' :: ' ' :: ("i".toList ++ ')' ::
      ' ' :: '=' :: '>' :: ' ' :: ("i".toList ++ ' ' :: '+' :: ' ' :: '1' :: ')' :: '.' ::
      ("reduce".toList ++ '(' :: '(' :: ("a".toList ++ ',' :: ' ' :: ("b".toList ++ ')' :: ' ' ::
      '=' :: '>' :: ' ' :: ("a".toList ++ ' ' :: '*' :: ' ' :: ("b".toList ++ ',' :: ' ' :: '1' ::
      ')' :: cs)))))))) := rfl
  have hreduce : IsName "reduce".toList := isName_of_all rfl
  rw [hsplit, lex_space, lex_rbrace, lex_comma, lex_space, lex_lparen,
    lex_template "_" (by decide) ',' (by decide), lex_comma, lex_space,
    lex_template "i" (by decide) ')' (by decide), lex_rparen, lex_space, lex_arrow, lex_space,
    lex_template "i" (by decide) ' ' (by decide), lex_space, hplus, lex_one ')' (by decide),
    lex_rparen, lex_dot hreduce (apart_cons (by decide) (by decide) (by decide)),
    lex_lparen, lex_lparen, lex_template "a" (by decide) ',' (by decide), lex_comma, lex_space,
    lex_template "b" (by decide) ')' (by decide), lex_rparen, lex_space, lex_arrow, lex_space,
    lex_template "a" (by decide) ' ' (by decide), lex_space, htimes,
    lex_template "b" (by decide) ',' (by decide), lex_comma, lex_space, lex_one ')' (by decide),
    lex_rparen]
  rfl

theorem spells_factorial {b : Bool} (h : Spells bare text sign ts) :
    Spells b ("Array.from(\x7b length: " ++ text ++
      " \x7d, (_, i) => i + 1).reduce((a, b) => a * b, 1)") none
      (factorialTokens (signed sign ts)) := by
  refine spells_of_lex ⟨'A', by simp, rfl⟩ fun rest _ _ => ?_
  have hbefore : lex (text.toList ++ (" \x7d, (_, i) => i + 1).reduce((a, b) => a * b, 1)".toList ++
      rest)) = signed sign ts ++ lex (" \x7d, (_, i) => i + 1).reduce((a, b) => a * b, 1)".toList ++
      rest) := h.before ' ' (by decide)
  rw [String.toList_append, String.toList_append, List.append_assoc, List.append_assoc,
    lex_factorial_head, hbefore, lex_factorial_tail]
  simp only [factorialTokens, List.append_assoc]

end JavaScript

namespace Node

open JavaScript

variable {path : List Region}

/-- A field of anything, a whole number included. -/
theorem spells_access {e : Node} {name : String} {b : Bool} (he : Spelled .value e)
    (hname : IsName name.toList) :
    Spells b (e.code ++ ("." ++ name)) e.sign (accessTokens e e.unsigned name.toList) := by
  unfold accessTokens
  split
  · exact spells_glued _ hname
  · rename_i hne
    have hbare : e.isBare = false := by
      unfold isBare
      split
      · exact absurd rfl (hne _)
      · rfl
    have hfalse : Spells false e.code e.sign e.unsigned := hbare ▸ he
    exact hfalse.access hname

theorem code_length (e : Node) : (unary .length e).code = e.code ++ ("." ++ "length") := by
  have hlength : ".length" = "." ++ "length" := by decide
  rw [← hlength]
  rfl

theorem spelled_unary {op : UnOp} {e : Node} (hop : op ∈ UnOp.known) (he : Spelled .value e) :
    Spelled .value (unary op e) := by
  simp only [UnOp.known, List.mem_cons, List.not_mem_nil, or_false] at hop
  unfold Spelled
  obtain rfl | rfl | rfl | rfl | rfl | rfl := hop
  · exact spells_signed "-" rfl he
  · exact spells_signed "!" rfl he
  · have hname : IsName "length".toList := isName_of_all rfl
    rw [code_length]
    exact spells_access he hname
  · exact he.increment
  · exact he.decrement
  · exact spells_factorial he

/-- The text of every expression over names of the language is read as its tokens. -/
theorem IsExp.spelled {k : ExpSort} {e : Node} (h : IsExp k e) (hl : Everywhere Lexical path e) :
    Spelled k e := by
  induction h with
  | number a => exact spells_number a
  | string t => exact spells_string t
  | boolean v => exact spells_boolean v
  | symbol s => exact spells_symbol (everywhere_iff.1 hl).1
  | conditional _ _ _ iht ihy ihn =>
    obtain ⟨-, ht, hy, hn⟩ := everywhere_iff.1 hl
    exact spells_conditional (iht ht) (ihy hy) (ihn hn)
  | binary hop _ _ ihl ihr =>
    obtain ⟨-, hleft, hright⟩ := everywhere_iff.1 hl
    exact spells_binary hop (ihl hleft) (ihr hright)
  | unary hop _ ih =>
    exact spelled_unary hop (ih (everywhere_iff.1 hl).2)
  | array _ ih => exact spells_array fun e he => ih e he ((everywhere_iff.1 hl).2 e he)
  | dict _ ih => exact spells_dict fun e he => ih e he ((everywhere_iff.1 hl).2 e he)
  | dictItem _ ih => exact spells_dictItem (ih (everywhere_iff.1 hl).2)
  | @member object access name haccessor _ ih =>
    obtain ⟨hname, hobject⟩ := everywhere_iff.1 hl
    have he := ih hobject
    have hcode : (Node.member object access name).code = object.code ++ (access ++ name) :=
      String.append_assoc
    unfold Spelled
    rw [hcode]
    obtain rfl | rfl := haccessor
    · exact spells_access he hname
    · exact he.optionalAccess hname
  | @subscript collection index _ _ ihc ihi =>
    obtain ⟨-, hc, hi⟩ := everywhere_iff.1 hl
    have hcode : (Node.subscript collection index).code =
        collection.code ++ ("[" ++ index.code ++ "]") := by
      simp [code, String.append_assoc]
    unfold Spelled
    rw [hcode]
    exact (ihc hc).index (ihi hi)
  | @call f args _ ih =>
    obtain ⟨-, hf, hargs⟩ := everywhere_iff.1 hl
    have hcode : (Node.call (.symbol f) args).code =
        f.code ++ ("(" ++ commaJoin (codes args) ++ ")") := by
      simp [code, symbolCode, String.append_assoc]
    unfold Spelled
    rw [hcode]
    exact Spells.call (spells_symbol (b := false) (everywhere_iff.1 hf).1)
      fun e he => ih e he (hargs e he)

end Node

end Terse
