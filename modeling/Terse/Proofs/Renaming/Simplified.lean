import Terse.Proofs.Node.Scoping
import Terse.Proofs.Renaming.Basic

/-! Simplification does not depend on names. -/
namespace Terse.Node

variable (g : Renaming)

theorem renameAll_append (ns ms : List Node) :
    renameAll g (ns ++ ms) = renameAll g ns ++ renameAll g ms := by
  simp only [renameAll_eq_map, List.map_append]

section

variable (n : Node)

@[simp] theorem items_rename : (n.rename g).items = renameAll g n.items := by cases n <;> rfl

@[simp] theorem standsAlone_rename : (n.rename g).standsAlone = n.standsAlone := by cases n <;> rfl

@[simp] theorem isBranch_rename : (n.rename g).isBranch = n.isBranch := by cases n <;> rfl

@[simp] theorem isChoice_rename : (n.rename g).isChoice = n.isChoice := by cases n <;> rfl

@[simp] theorem className_rename : (n.rename g).className = n.className := by cases n <;> rfl

@[simp] theorem isNumber_rename (v : Int) : (n.rename g).isNumber v = n.isNumber v := by
  cases n <;> rfl

@[simp] theorem isBoolean_rename (b : Bool) : (n.rename g).isBoolean b = n.isBoolean b := by
  cases n <;> rfl

@[simp] theorem isNoCount_rename : (n.rename g).isNoCount = n.isNoCount := by cases n <;> rfl

@[simp] theorem isEmptyArray_rename : (n.rename g).isEmptyArray = n.isEmptyArray := by
  cases n with
  | array elements => cases elements <;> rfl
  | _ => rfl

@[simp] theorem isEmptyRange_rename (m : Node) :
    isEmptyRange (n.rename g) (m.rename g) = isEmptyRange n m := by
  cases n with
  | number a => cases m <;> rfl
  | _ => rfl

/-- Symbols are told apart by more than their names. -/
@[simp] theorem sameSymbol_rename (m : Node) :
    sameSymbol (n.rename g) (m.rename g) = sameSymbol n m := by
  cases n with
  | symbol s =>
    cases m with
    | symbol t =>
      rw [rename, rename, sameSymbol, sameSymbol]
      exact decide_eq_decide.2 (Symbol.rename_inj g)
    | _ => rfl
  | _ => rfl

end

theorem rename_ofConstant (c : Constant) : (ofConstant c).rename g = ofConstant c := by
  cases c <;> rfl

section

variable (op : BinOp) (left right : Node)

theorem folded?_rename : folded? op (left.rename g) (right.rename g) =
    (folded? op left right).map (rename g) := by
  cases left with
  | number a =>
    cases right with
    | number b =>
      rw [rename, rename, folded?, Option.map_map]
      exact Option.map_congr fun c _ => (rename_ofConstant g c).symm
    | _ => rfl
  | _ => rfl

theorem identity?_rename : identity? op (left.rename g) (right.rename g) =
    (identity? op left right).map (rename g) := by
  unfold identity?
  simp only [isNumber_rename, isBoolean_rename]
  cases op <;> grind [rename, zero, one]

theorem simplifyBinary_rename : simplifyBinary op (left.rename g) (right.rename g) =
    (simplifyBinary op left right).rename g := by
  rw [simplifyBinary, simplifyBinary, folded?_rename, identity?_rename]
  cases folded? op left right with
  | some n => rfl
  | none =>
    cases identity? op left right with
    | some n => rfl
    | none => rfl

end

theorem simplifyUnary_rename (op : UnOp) (operand : Node) :
    simplifyUnary op (operand.rename g) = (simplifyUnary op operand).rename g := by
  cases operand <;> cases op <;> rfl

theorem chained_rename (n : Node) : chained (n.rename g) = (chained n).rename g := by
  cases n with
  | list ns =>
    match ns with
    | [] => rfl
    | [n] =>
      rw [rename, renameAll, renameAll, chained, chained, isChoice_rename]
      split <;> rfl
    | n :: m :: ns => rfl
  | _ => rfl

theorem linked_rename (before after : Node) :
    linked (before.rename g) (after.rename g) = (linked before after).rename g := by
  cases before with
  | list ns => rfl
  | _ => exact chained_rename g after

theorem chosen_rename (test : Node) (yes : List Node) (no : Node) :
    chosen (test.rename g) (renameAll g yes) (no.rename g) = (chosen test yes no).rename g := by
  cases test with
  | boolean b => cases b <;> simp [chosen, rename]
  | _ => rfl

mutual

/-- Simplification does not depend on names. -/
theorem simplify_rename : ∀ n : Node, (n.rename g).simplify = n.simplify.rename g
  | program ns | list ns => by
    rw [rename, simplify, simplify, simplifyBlock_rename ns, rename]
  | declare v initializer => by
    rw [rename, simplify, simplify, simplify_rename initializer]
    rfl
  | assign target source => by
    rw [rename, simplify, simplify, simplify_rename source, simplify_rename target]
    rw [sameSymbol_rename]
    split <;> rfl
  | print e | returnValue e | throwValue e | callAlone e => by
    rw [rename, simplify, simplify, simplify_rename e]
    rfl
  | ifElse test consequent alternate => by
    rw [rename, simplify, simplify, simplify_rename test, simplifyBlock_rename consequent,
      simplify_rename alternate, linked_rename, chosen_rename]
  | ifOnly test consequent => by
    rw [rename, simplify, simplify, simplify_rename test, simplifyBlock_rename consequent]
    cases simplify test with
    | boolean b => cases b <;> rfl
    | _ => rfl
  | whileLoop test body => by
    rw [rename, simplify, simplify, simplify_rename test, simplifyBlock_rename body]
    cases simplify test with
    | boolean b => cases b <;> rfl
    | _ => rfl
  | repeatLoop count body => by
    rw [rename, simplify, simplify, simplify_rename count, simplifyBlock_rename body]
    rw [isNoCount_rename]
    split <;> rfl
  | rangeLoop v low high step body => by
    rw [rename, simplify, simplify, simplify_rename low, simplify_rename high, simplify_rename step,
      simplifyBlock_rename body]
    rw [isEmptyRange_rename]
    split <;> rfl
  | eachLoop v collection body => by
    rw [rename, simplify, simplify, simplify_rename collection, simplifyBlock_rename body]
    rw [isEmptyArray_rename]
    split <;> rfl
  | breakLoop | continueLoop | returnNone => rfl
  | tryCatch body params handler => by
    rw [rename, simplify, simplify, simplifyBlock_rename body, simplifyBlock_rename handler]
    rfl
  | function f params body => by
    rw [rename, simplify, simplify, simplifyBlock_rename body]
    rfl
  | conditional test yes no => by
    rw [rename, simplify, simplify, simplify_rename test, simplify_rename yes, simplify_rename no]
    cases simplify test with
    | boolean b => cases b <;> rfl
    | _ => rfl
  | binary op left right => by
    rw [rename, simplify, simplify, simplify_rename left, simplify_rename right,
      simplifyBinary_rename]
  | unary op operand => by
    rw [rename, simplify, simplify, simplify_rename operand, simplifyUnary_rename]
  | array ns | dict ns => by
    rw [rename, simplify, simplify, simplifyAll_rename ns, rename]
  | dictItem key value => by
    rw [rename, simplify, simplify, simplify_rename value, rename]
  | member object access name => by
    rw [rename, simplify, simplify, simplify_rename object, rename]
  | subscript collection index => by
    rw [rename, simplify, simplify, simplify_rename collection, simplify_rename index, rename]
  | call callee args => by
    rw [rename, simplify, simplify, simplifyAll_rename args, rename]
  | number _ | string _ | boolean _ | symbol _ | foreign _ => rfl

theorem simplifyBlock_rename : ∀ ns : List Node,
    simplifyBlock (renameAll g ns) = renameAll g (simplifyBlock ns)
  | [] => rfl
  | n :: ns => by
    rw [renameAll, simplifyBlock, simplifyBlock, simplify_rename n, simplifyBlock_rename ns,
      items_rename, renameAll_append]

theorem simplifyAll_rename : ∀ ns : List Node,
    simplifyAll (renameAll g ns) = renameAll g (simplifyAll ns)
  | [] => rfl
  | n :: ns => by
    rw [renameAll, simplifyAll, simplifyAll, simplify_rename n, simplifyAll_rename ns, renameAll]

end

/-- The fault of a node where not every node may stand. -/
def faultUnless (fits : Bool) (n : Node) : Option SimplifyFault :=
  if fits then n.fault? else some (.unknownStatement n.className)

theorem fault?_choice (test : Node) (yes : List Node) (no : Node) :
    (ifElse test yes no).fault? =
      (test.fault? <|> blockFault? yes <|> no.faultUnless no.isBranch) := by
  cases no <;> rfl

theorem blockFault?_step (n : Node) (ns : List Node) :
    blockFault? (n :: ns) = (n.faultUnless n.standsAlone <|> blockFault? ns) := by
  cases n <;> rfl

mutual

/-- Faults do not depend on names. -/
theorem fault?_rename : ∀ n : Node, (n.rename g).fault? = n.fault?
  | program ns | list ns => by rw [rename, fault?, fault?, blockFault?_rename ns]
  | declare v initializer => by rw [rename, fault?, fault?, fault?_rename initializer]
  | assign target source => by
    rw [rename, fault?, fault?, fault?_rename source, fault?_rename target]
  | print e | returnValue e | throwValue e | callAlone e => by
    rw [rename, fault?, fault?, fault?_rename e]
  | ifElse test consequent alternate => by
    rw [rename, fault?_choice, fault?_choice, fault?_rename test, blockFault?_rename consequent,
      faultUnless, faultUnless, isBranch_rename, className_rename, fault?_rename alternate]
  | ifOnly test consequent => by
    rw [rename, fault?, fault?, fault?_rename test, blockFault?_rename consequent]
  | whileLoop test body => by
    rw [rename, fault?, fault?, fault?_rename test, blockFault?_rename body, simplify_rename,
      isBoolean_rename]
  | repeatLoop count body => by
    rw [rename, fault?, fault?, fault?_rename count, blockFault?_rename body, simplify_rename,
      isNoCount_rename]
  | rangeLoop v low high step body => by
    rw [rename, fault?, fault?, fault?_rename low, fault?_rename high, fault?_rename step,
      blockFault?_rename body, simplify_rename, simplify_rename, isEmptyRange_rename]
  | eachLoop v collection body => by
    rw [rename, fault?, fault?, fault?_rename collection, blockFault?_rename body, simplify_rename,
      isEmptyArray_rename]
  | tryCatch body params handler => by
    rw [rename, fault?, fault?, blockFault?_rename body, blockFault?_rename handler]
  | function f params body => by rw [rename, fault?, fault?, blockFault?_rename body]
  | conditional test yes no => by
    rw [rename, fault?, fault?, fault?_rename test, fault?_rename yes, fault?_rename no,
      simplify_rename]
    cases simplify test with
    | boolean b => cases b <;> rfl
    | _ => rfl
  | binary op left right => by
    rw [rename, fault?, fault?, fault?_rename left, fault?_rename right]
  | unary op operand => by rw [rename, fault?, fault?, fault?_rename operand]
  | array ns | dict ns | call _ ns => by rw [rename, fault?, fault?, anyFault?_rename ns]
  | dictItem key value => by rw [rename, fault?, fault?, fault?_rename value]
  | member object access name => by rw [rename, fault?, fault?, fault?_rename object]
  | subscript collection index => by
    rw [rename, fault?, fault?, fault?_rename collection, fault?_rename index]
  | breakLoop | continueLoop | returnNone | number _ | string _ | boolean _ | symbol _
  | foreign _ => rfl

theorem blockFault?_rename : ∀ ns : List Node, blockFault? (renameAll g ns) = blockFault? ns
  | [] => rfl
  | n :: ns => by
    rw [renameAll, blockFault?_step, blockFault?_step, blockFault?_rename ns, faultUnless,
      faultUnless, standsAlone_rename, className_rename, fault?_rename n]

theorem anyFault?_rename : ∀ ns : List Node, anyFault? (renameAll g ns) = anyFault? ns
  | [] => rfl
  | n :: ns => by rw [renameAll, anyFault?, anyFault?, fault?_rename n, anyFault?_rename ns]

end

/-- Optimization does not depend on names. -/
theorem optimize_rename (n : Node) : (n.rename g).optimize = n.optimize.map (rename g) := by
  rw [optimize, optimize, fault?_rename, simplify_rename]
  cases n.fault? <;> rfl

end Terse.Node
