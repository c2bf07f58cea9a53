import Terse.Proofs.Emit.Layout
import Terse.Proofs.Emit.Numeral
import Terse.Proofs.Outline.Tree
import Terse.Proofs.Text.Quoted

/-! The heading of a node says of which class it is and what it has besides its parts. -/
namespace Terse

/-- Variables and functions as outlines show them: whether a program may write to a variable, and
whether the target language has the function, is left out. -/
def SymbolKind.shown : SymbolKind → SymbolKind
  | .var _ => .var false
  | .fn arity _ => .fn arity false

/-- A symbol as outlines show it, by name, number and kind. -/
def Symbol.shown (s : Symbol) : Symbol := ⟨s.name, s.uid, s.kind.shown, .library⟩

namespace Node

mutual

/-- A node with all symbols in it as outlines show them. -/
def shown : Node → Node
  | program ss => program (shownAll ss)
  | declare v e => declare (shown v) (shown e)
  | assign target source => assign (shown target) (shown source)
  | print e => print (shown e)
  | ifElse test yes no => ifElse (shown test) (shownAll yes) (shown no)
  | ifOnly test yes => ifOnly (shown test) (shownAll yes)
  | whileLoop test body => whileLoop (shown test) (shownAll body)
  | repeatLoop count body => repeatLoop (shown count) (shownAll body)
  | rangeLoop v low high step body =>
    rangeLoop (shown v) (shown low) (shown high) (shown step) (shownAll body)
  | eachLoop v collection body => eachLoop (shown v) (shown collection) (shownAll body)
  | breakLoop => breakLoop
  | continueLoop => continueLoop
  | returnValue e => returnValue (shown e)
  | returnNone => returnNone
  | throwValue e => throwValue (shown e)
  | tryCatch body params handler => tryCatch (shownAll body) (shownAll params) (shownAll handler)
  | function f params body => function (shown f) (shownAll params) (shownAll body)
  | callAlone c => callAlone (shown c)
  | conditional test yes no => conditional (shown test) (shown yes) (shown no)
  | binary op left right => binary op (shown left) (shown right)
  | unary op operand => unary op (shown operand)
  | array es => array (shownAll es)
  | dict es => dict (shownAll es)
  | dictItem key e => dictItem key (shown e)
  | member object access name => member (shown object) access name
  | subscript collection index => subscript (shown collection) (shown index)
  | call f args => call (shown f) (shownAll args)
  | number a => number a
  | string t => string t
  | boolean b => boolean b
  | symbol s => symbol s.shown
  | list ns => list (shownAll ns)
  | foreign c => foreign c
termination_by structural n => n

def shownAll : List Node → List Node
  | [] => []
  | n :: ns => shown n :: shownAll ns
termination_by structural ns => ns

end

end Node

/-- What follows the name of a symbol in its heading. -/
def Symbol.suffix (s : Symbol) : String :=
  match s.kind with
  | .var _ => " #" ++ toString s.uid
  | .fn arity _ => "/" ++ toString arity ++ " #" ++ toString s.uid

theorem Number.toList_text_negSucc (n : Nat) :
    (int (.negSucc n)).text.toList = '-' :: Nat.toDigits 10 (n + 1) := by
  simp [text, chars, toString, Int.repr]

/-- Integers that are written alike are the same. -/
theorem Number.int_of_text {z w : Int} (h : (int z).text = (int w).text) : z = w := by
  have hsign (m n : Nat) : Nat.toDigits 10 m ≠ '-' :: Nat.toDigits 10 n := by
    intro hm
    exact notMem_toDigits (c := '-') rfl m (hm ▸ List.mem_cons_self)
  rw [← String.toList_inj] at h
  cases z with
  | ofNat m =>
    cases w with
    | ofNat n =>
      rw [Int.ofNat_eq_natCast, Int.ofNat_eq_natCast, toList_text_int, toList_text_int] at h
      rw [eq_of_toDigits h]
    | negSucc n =>
      rw [Int.ofNat_eq_natCast, toList_text_int, toList_text_negSucc] at h
      exact absurd h (hsign m (n + 1))
  | negSucc m =>
    cases w with
    | ofNat n =>
      rw [Int.ofNat_eq_natCast, toList_text_int, toList_text_negSucc] at h
      exact absurd h.symm (hsign n (m + 1))
    | negSucc n =>
      rw [toList_text_negSucc, toList_text_negSucc] at h
      rw [Nat.succ.inj (eq_of_toDigits (List.tail_eq_of_cons_eq h))]

namespace Symbol

variable {s t : Symbol} {arity : Nat} {flag : Bool}

theorem toList_suffix_var (h : s.kind = .var flag) :
    s.suffix.toList = ' ' :: '#' :: Nat.toDigits 10 s.uid := by
  simp [suffix, h, toString]

theorem toList_suffix_fn (h : s.kind = .fn arity flag) :
    s.suffix.toList = '/' :: (Nat.toDigits 10 arity ++ ' ' :: '#' :: Nat.toDigits 10 s.uid) := by
  simp [suffix, h, toString]

/-- What follows the name of a symbol tells its kind and its number. -/
theorem suffix_inj (hclass : s.className = t.className) (h : s.suffix = t.suffix) :
    s.kind.shown = t.kind.shown ∧ s.uid = t.uid := by
  have hfunction : s.isFunction = t.isFunction := by
    unfold className at hclass
    split at hclass <;> split at hclass <;> first | contradiction | simp_all
  rw [← String.toList_inj] at h
  cases hs : s.kind with
  | var =>
    cases ht : t.kind with
    | var =>
      rw [toList_suffix_var hs, toList_suffix_var ht] at h
      exact ⟨rfl, eq_of_toDigits (List.tail_eq_of_cons_eq (List.tail_eq_of_cons_eq h))⟩
    | fn => simp [isFunction, hs, ht] at hfunction
  | fn arity =>
    cases ht : t.kind with
    | var => simp [isFunction, hs, ht] at hfunction
    | fn arity' =>
      rw [toList_suffix_fn hs, toList_suffix_fn ht] at h
      have hblank (n : Nat) : ' ' ∉ Nat.toDigits 10 n := notMem_toDigits rfl n
      have hnumber : ' ' ∉ '#' :: Nat.toDigits 10 s.uid := by simp [hblank]
      obtain ⟨harity, -, huid⟩ :=
        (List.append_cons_inj_of_notMem (hblank arity) hnumber).1 (List.tail_eq_of_cons_eq h)
      rw [SymbolKind.shown, SymbolKind.shown, eq_of_toDigits harity]
      exact ⟨rfl, eq_of_toDigits (List.tail_eq_of_cons_eq huid)⟩

theorem suffix_apart (s : Symbol) : ∀ c ∈ s.suffix.toList.head?, Lexer.isWordChar c = false := by
  intro c hc
  cases h : s.kind with
  | var =>
    rw [toList_suffix_var h] at hc
    obtain rfl := Option.some.inj hc
    rfl
  | fn =>
    rw [toList_suffix_fn h] at hc
    obtain rfl := Option.some.inj hc
    rfl

/-- The name of a symbol ends before the first character that no name has. -/
theorem shown_inj (hs : IsName s.name.toList) (ht : IsName t.name.toList)
    (hclass : s.className = t.className) (h : s.name ++ s.suffix = t.name ++ t.suffix) :
    s.shown = t.shown := by
  have hcut {s : Symbol} (hs : IsName s.name.toList) :
      (s.name ++ s.suffix).toList.takeWhile Lexer.isWordChar = s.name.toList := by
    rw [String.toList_append]
    exact JavaScript.takeWhile_of_apart hs.isWordChar (suffix_apart s)
  have hname : s.name = t.name := by rw [← String.toList_inj, ← hcut hs, ← hcut ht, h]
  rw [hname, String.append_right_inj] at h
  obtain ⟨hkind, huid⟩ := suffix_inj hclass h
  rw [shown, shown, hname, hkind, huid]

theorem newline_notMem_suffix (s : Symbol) : '\n' ∉ s.suffix.toList := by
  have hdigits (n : Nat) : '\n' ∉ Nat.toDigits 10 n := notMem_toDigits rfl n
  cases h : s.kind with
  | var => simp [toList_suffix_var h, hdigits]
  | fn => simp [toList_suffix_fn h, hdigits]

end Symbol

namespace Node

/-- What follows the class of a node in its heading. -/
def details : Node → String
  | binary op _ _ => " op=" ++ quotedString op.word
  | unary op _ => " op=" ++ quotedString op.word
  | dictItem key _ => " key=" ++ quotedString key
  | member _ access name => " access=" ++ quotedString access ++ " name=" ++ quotedString name
  | number a => " " ++ a.text
  | string t => " " ++ t.quoted
  | boolean b => if b then " true" else " false"
  | symbol s => " " ++ s.name ++ s.suffix
  | _ => ""

/-- Nodes that show all they are: numbers are integers, and what symbols are called is a name. -/
def IsPlain : Node → Prop
  | number a => ∃ z : Int, a = .int z
  | symbol s => IsName s.name.toList
  | _ => True

variable {m n : Node}

theorem heading_symbol (s : Symbol) :
    s.outline.heading = s.className ++ (" " ++ s.name ++ s.suffix) := by
  unfold Symbol.outline Symbol.suffix Symbol.className Symbol.isFunction
  rw [← String.toList_inj]
  cases s.kind <;> simp [Outline.heading, toString]

/-- A heading is the class of the node and its details. -/
theorem heading_eq (h : n.isKnown) : n.outline.heading = n.className ++ n.details := by
  cases n with
  | list | foreign => contradiction
  | symbol s => simp only [outline, heading_symbol, className, details]
  | binary | unary | dictItem | member | number | string =>
    simp [outline, Outline.titled, Outline.literal, Outline.heading, className, details,
      ← String.toList_inj]
  | boolean b => cases b <;> rfl
  | _ =>
    simp only [outline, Outline.plain, Outline.heading, className, details, String.append_empty]

theorem isAlpha_className (h : n.isKnown) : ∀ c ∈ n.className.toList, c.isAlpha := by
  rw [← List.all_eq_true]
  cases n with
  | list | foreign => contradiction
  | symbol s =>
    rw [className, Symbol.className]
    split <;> decide
  | _ =>
    simp only [className]
    decide

theorem details_apart (n : Node) : ∀ c ∈ n.details.toList.head?, c = ' ' := by
  cases n with
  | boolean b => cases b <;> simp [details]
  | _ => simp [details]

/-- The place of a class among the kinds of nodes. -/
def classIndex (name : String) : Nat :=
  -- functions are symbols as variables are
  if name = "Function" then 30 else
    ["Program", "VariableDeclaration", "Assignment", "PrintStmt", "IfStmt", "ShortIfStmt",
      "WhileStmt", "RepeatStmt", "ForRangeStmt", "ForStmt", "BreakStmt", "ContinueStmt",
      "ReturnStmt", "ShortReturnStmt", "ThrowStmt", "TryStmt", "FunctionDeclaration", "CallStmt",
      "ConditionalExpression", "BinaryExpression", "UnaryExpression", "ArrayExpression",
      "DictExpression", "DictItem", "MemberExpression", "Subscript", "FuncCall", "Number", "String",
      "Boolean", "Variable"].idxOf name

theorem ctorIdx_eq (h : n.isKnown) : n.ctorIdx = classIndex n.className := by
  cases n with
  | list | foreign => contradiction
  | symbol s =>
    rw [className, Symbol.className]
    split <;> rfl
  | _ => rfl

/-- A heading is cut at its first blank into class and details. -/
theorem heading_inj (hm : m.isKnown) (hn : n.isKnown) (h : m.outline.heading = n.outline.heading) :
    m.className = n.className ∧ m.details = n.details := by
  have hclass {n : Node} (hn : n.isKnown) :
      n.outline.heading.toList.takeWhile Char.isAlpha = n.className.toList := by
    rw [heading_eq hn, String.toList_append]
    refine JavaScript.takeWhile_of_apart (isAlpha_className hn) fun c hc => ?_
    rw [details_apart n c hc]
    rfl
  have hname : m.className = n.className := by
    rw [← String.toList_inj, ← hclass hm, ← hclass hn, h]
  rw [heading_eq hm, heading_eq hn, hname, String.append_right_inj] at h
  exact ⟨hname, h⟩

theorem binOp_of_word : ∀ a ∈ BinOp.known, ∀ b ∈ BinOp.known, a.word = b.word → a = b := by decide

theorem unOp_of_word : ∀ a ∈ UnOp.known, ∀ b ∈ UnOp.known, a.word = b.word → a = b := by decide

/-- Nodes of one class with the same details and the same parts are shown alike. -/
theorem shown_inj (hm : m.isKnown) (hn : n.isKnown) (hm' : m.IsPlain) (hn' : n.IsPlain)
    (hclass : m.className = n.className) (hdetails : m.details = n.details)
    (hfields : m.fields.map (·.2.shown) = n.fields.map (·.2.shown)) : m.shown = n.shown := by
  have hindex : m.ctorIdx = n.ctorIdx := by rw [ctorIdx_eq hm, ctorIdx_eq hn, hclass]
  -- of the pairs of constructors just the equal ones are left
  cases m <;> cases n <;> cases hindex
  case binary.binary op _ _ op' _ _ =>
    simp only [details, String.append_right_inj] at hdetails
    simp only [isKnown, decide_eq_true_eq] at hm hn
    obtain rfl := binOp_of_word op hm op' hn (quotedString_inj hdetails)
    simpa [fields, shown] using hfields
  case unary.unary op _ op' _ =>
    simp only [details, String.append_right_inj] at hdetails
    simp only [isKnown, decide_eq_true_eq] at hm hn
    obtain rfl := unOp_of_word op hm op' hn (quotedString_inj hdetails)
    simpa [fields, shown] using hfields
  case dictItem.dictItem =>
    simp only [details, String.append_right_inj] at hdetails
    obtain rfl := quotedString_inj hdetails
    simpa [fields, shown] using hfields
  case member.member =>
    simp only [details, String.append_assoc, String.append_right_inj] at hdetails
    obtain ⟨rfl, hname⟩ := quotedString_append_inj hdetails
    obtain rfl := quotedString_inj ((String.append_right_inj _).1 hname)
    simpa [fields, shown] using hfields
  case number.number =>
    simp only [details, String.append_right_inj] at hdetails
    obtain ⟨z, rfl⟩ := hm'
    obtain ⟨w, rfl⟩ := hn'
    rw [Number.int_of_text hdetails]
  case string.string t u =>
    simp only [details, String.append_right_inj] at hdetails
    rw [Text.quoted_injective hdetails]
  case boolean.boolean b b' =>
    cases b <;> cases b' <;> first | rfl | exact absurd hdetails (by decide)
  case symbol.symbol =>
    simp only [details, String.append_assoc, String.append_right_inj] at hdetails
    rw [shown, shown, Symbol.shown_inj hm' hn' hclass hdetails]
  case list.list | foreign.foreign => contradiction
  case breakLoop.breakLoop | continueLoop.continueLoop | returnNone.returnNone => rfl
  all_goals simpa [fields, shown] using hfields

theorem fieldNames_eq (hm : m.isKnown) (hn : n.isKnown) (hclass : m.className = n.className) :
    m.fields.map (·.1) = n.fields.map (·.1) := by
  have hindex : m.ctorIdx = n.ctorIdx := by rw [ctorIdx_eq hm, ctorIdx_eq hn, hclass]
  cases m <;> cases n <;> cases hindex <;> rfl

/-- The details of a plain node stay on its line. -/
theorem newline_notMem_details (h : n.IsPlain) : '\n' ∉ n.details.toList := by
  have hquoted (s : String) : '\n' ∉ (quotedString s).toList := by
    rw [toList_quotedString]
    exact Text.newline_notMem_quotedChars _
  have hdigits (n : Nat) : '\n' ∉ Nat.toDigits 10 n := notMem_toDigits rfl n
  cases n with
  | number a =>
    obtain ⟨z, rfl⟩ := h
    cases z with
    | ofNat n => simp [details, Number.toList_text_int, hdigits]
    | negSucc n => simp [details, Number.toList_text_negSucc, hdigits]
  | string t => simp [details, Text.quoted, Text.newline_notMem_quotedChars]
  | boolean b => cases b <;> decide
  | symbol s =>
    have hname : '\n' ∉ s.name.toList := fun hc => absurd (IsName.isWordChar h _ hc) (by decide)
    simp [details, hname, Symbol.newline_notMem_suffix]
  | _ => simp [details, hquoted]

end Node

end Terse
