import Terse.Proofs.Analysis.Scoped
import Terse.Proofs.Node.Everywhere

/-! Jumps, returns and calls of a resolved program are where and what they should be. -/
namespace Terse

namespace Node

/-- What a node asks of its place and of what is called or declared: jumps are in a loop of the same
function, returns are in some function, and functions have as many parameters and arguments as they
should. -/
def Sound (path : List Region) : Node → Prop
  | breakLoop | continueLoop => path.head? = some .loop
  | returnValue _ | returnNone => .function ∈ path
  | call f args => ∃ s intrinsic, f = symbol s ∧ s.kind = .fn args.length intrinsic
  | function f params _ => ∃ s, f = symbol s ∧ s.kind = .fn params.length false
  | _ => True

theorem steady_sound : Steady Sound where
  shell {path n} := by cases n <;> simp [Sound, shell]
  constant c := by cases c <;> trivial
  negation e := trivial
  list ss := trivial

end Node

namespace Analysis

open Node (ExpSort Region Sound Everywhere EverywhereIn everywhere_iff)

variable {P : Token → Prop} {path : List Region} {outer : Scope} {f f' : Frame} {u u' : Nat}

theorem sound_symbol (s : Symbol) : Everywhere Sound path (.symbol s) :=
  everywhere_iff.2 ⟨trivial, trivial⟩

theorem sound_symbols (ss : List Symbol) : EverywhereIn Sound path (ss.map .symbol) := by
  intro n hn
  obtain ⟨s, -, rfl⟩ := List.mem_map.1 hn
  exact sound_symbol s

/-- Calls in expressions have as many arguments as their functions have parameters. -/
theorem ExpTo.sound {sc : Scope} {k : ExpSort} {t : Tree} {n : Node} (h : ExpTo P sc k t n) :
    Everywhere Sound path n := by
  induction h with
  | number | string | trueLit | falseLit | var => exact everywhere_iff.2 ⟨trivial, trivial⟩
  | @call _ s intrinsic _ _ _ _ _ hkind hl _ ih =>
    exact everywhere_iff.2 ⟨⟨s, intrinsic, rfl, hl ▸ hkind⟩, sound_symbol s,
      forall_mem_of_zip hl ih⟩
  | array hl _ ih | dict hl _ ih => exact everywhere_iff.2 ⟨trivial, forall_mem_of_zip hl ih⟩
  | dictItem _ _ ih | member _ _ ih | optionalMember _ _ ih | postfixUnary _ _ ih
  | unary _ _ ih => exact everywhere_iff.2 ⟨trivial, ih⟩
  | subscript _ _ ihl ihr | power _ _ ihl ihr | binary _ _ _ ihl ihr | relational _ _ _ ihl ihr
  | andExp _ _ ihl ihr | orExp _ _ ihl ihr => exact everywhere_iff.2 ⟨trivial, ihl, ihr⟩
  | conditional _ _ _ iht ihy ihn => exact everywhere_iff.2 ⟨trivial, iht, ihy, ihn⟩

/-- The flags of a scope promise no more than the bodies around it give. -/
structure Backed (f : Frame) (path : List Region) : Prop where
  loop : f.inLoop → path.head? = some .loop
  function : f.function.isSome → .function ∈ path

theorem backed_child (h : Backed f path) : Backed (f.child none none) path := ⟨h.loop, h.function⟩

theorem backed_loop (h : Backed f path) :
    Backed (f.child (some true) none) (.loop :: path) where
  loop _ := rfl
  function hf := List.mem_cons_of_mem _ (h.function hf)

theorem backed_function (s : Symbol) : Backed (.functionChild s) (.function :: path) where
  loop h := absurd h Bool.false_ne_true
  function _ := List.mem_cons_self

theorem backed_extend (h : Backed f path) (ss : List Symbol) : Backed (f.extend ss) path :=
  ⟨h.loop, h.function⟩

theorem backed_introduced {ps : List Token} {vs : List Symbol} (h : Introduced ps f u vs f' u')
    (hf : Backed f path) : Backed f' path := by
  rw [h.frame_eq]
  exact backed_extend hf vs

theorem backed_declare {s : Symbol} {loc : Option Loc} (h : f.declare s loc = .ok f')
    (hf : Backed f path) : Backed f' path := by
  rw [Frame.eq_extend h]
  exact backed_extend hf [s]

def Code.Sound (path : List Region) : Code → Prop
  | .stmt _ n => Everywhere Node.Sound path n
  | .row _ ns => EverywhereIn Node.Sound path ns

theorem introduced_length {ps : List Token} {vs : List Symbol} (h : Introduced ps f u vs f' u') :
    ps.length = vs.length := by
  induction h with
  | nil => rfl
  | cons _ _ ih => rw [List.length_cons, List.length_cons, ih]

/-- Code that resolves in a backed frame is sound at its place. -/
theorem StmtTo.sound {c : Code} (h : StmtTo P c outer f u f' u') (hf : Backed f path) :
    c.Sound path := by
  induction h generalizing path with
  | assign _ hn _ _ | declare _ hn _ _ =>
    exact everywhere_iff.2 ⟨trivial, sound_symbol _, hn.sound⟩
  | indexAssign _ _ hi hn =>
    exact everywhere_iff.2
      ⟨trivial, everywhere_iff.2 ⟨trivial, sound_symbol _, hi.sound⟩, hn.sound⟩
  | memberAssign _ _ _ hn =>
    exact everywhere_iff.2 ⟨trivial, everywhere_iff.2 ⟨trivial, sound_symbol _⟩, hn.sound⟩
  | mathAssign _ _ _ _ hn =>
    exact everywhere_iff.2
      ⟨trivial, sound_symbol _, everywhere_iff.2 ⟨trivial, sound_symbol _, hn.sound⟩⟩
  | incDecStmt hn _ | throwStmt hn => exact everywhere_iff.2 ⟨trivial, hn.sound⟩
  | callStmt hn =>
    have hs : Everywhere Node.Sound path _ := hn.sound
    obtain ⟨s, args, rfl⟩ := hn.eq_call
    exact everywhere_callStatement (fun _ => trivial) (fun _ => trivial) hs
  | @function t params vs _ _ _ _ _ _ _ _ _ u _ _ _ _ hvs _ ih =>
    have hlength : (vs.map Node.symbol).length = params.length := by
      rw [List.length_map, introduced_length hvs]
    refine everywhere_iff.2 ⟨⟨_, rfl, ?_⟩, sound_symbol _, sound_symbols vs, ?_⟩
    · rw [hlength]
      rfl
    · exact ih (backed_introduced hvs (backed_function _))
  | ifOnly hc _ ih => exact everywhere_iff.2 ⟨trivial, hc.sound, ih (backed_child hf)⟩
  | ifChain hc _ _ ih ihn =>
    exact everywhere_iff.2 ⟨trivial, hc.sound, ihn hf, ih (backed_child hf)⟩
  | ifElse hc _ _ ihy ihn =>
    have hno := ihn (backed_child hf)
    exact everywhere_iff.2
      ⟨trivial, hc.sound, everywhere_iff.2 ⟨trivial, hno⟩, ihy (backed_child hf)⟩
  | whileStmt hc _ ih => exact everywhere_iff.2 ⟨trivial, hc.sound, ih (backed_loop hf)⟩
  | repeatNumber _ _ _ ih =>
    exact everywhere_iff.2
      ⟨trivial, everywhere_iff.2 ⟨trivial, trivial⟩, ih (backed_loop hf)⟩
  | repeatName _ _ _ _ ih =>
    exact everywhere_iff.2 ⟨trivial, sound_symbol _, ih (backed_loop hf)⟩
  | rangeStmt _ ha hb hg _ ih =>
    exact everywhere_iff.2 ⟨trivial, sound_symbol _, ha.sound, hb.sound,
      everywhere_iff.2 ⟨trivial, trivial⟩, ih (backed_declare hg (backed_loop hf))⟩
  | steppedStmt _ ha hb hc hg _ ih =>
    exact everywhere_iff.2 ⟨trivial, sound_symbol _, ha.sound, hb.sound, hc.sound,
      ih (backed_declare hg (backed_loop hf))⟩
  | forStmt _ hc hg _ ih =>
    exact everywhere_iff.2
      ⟨trivial, sound_symbol _, hc.sound, ih (backed_declare hg (backed_loop hf))⟩
  | breakStmt hloop | continueStmt hloop => exact everywhere_iff.2 ⟨hf.loop hloop, trivial⟩
  | returnStmt hfunction hn => exact everywhere_iff.2 ⟨hf.function hfunction, hn.sound⟩
  | shortReturnStmt hfunction => exact everywhere_iff.2 ⟨hf.function hfunction, trivial⟩
  | tryStmt _ hvs _ ihb ihh =>
    exact everywhere_iff.2 ⟨trivial, ihb (backed_child hf), sound_symbols _,
      ihh (backed_introduced hvs (backed_child hf))⟩
  | nil => exact fun n hn => absurd hn List.not_mem_nil
  | cons hn _ ihn ihns =>
    have hf₁ := hn.frame_eq ▸ backed_extend hf _
    exact List.forall_mem_cons.2 ⟨ihn hf, ihns hf₁⟩

end Analysis

open Node (program Lies Sound EverywhereIn)

theorem backed_root : Analysis.Backed .root [] where
  loop h := absurd h (by decide)
  function h := absurd h (by decide)

theorem sound_of_everywhereIn {ss : List Node} (h : EverywhereIn Sound [] ss) :
    ∀ path n, Lies (program ss) path n → Sound path n := by
  intro path n hn
  have hprogram : Node.Everywhere Sound [] (program ss) := Node.everywhere_iff.2 ⟨trivial, h⟩
  exact hprogram.of_lies hn

/-- In a program whose names are resolved, and in what simplification makes of it, no jump leaves a
function, no return stands outside of one, and calls fit what they call. -/
theorem sound_everywhere {ts : List Token} {tree : Tree} {ss : List Node}
    (hd : Derives language .program ts [tree]) (hspelled : ∀ t ∈ ts, t.Spelled)
    (ha : analyze tree = .ok ss) :
    (∀ path n, Lies (program ss) path n → Sound path n) ∧
    ∃ ss', (program ss).optimize = .ok (program ss') ∧
      ∀ path n, Lies (program ss') path n → Sound path n := by
  have hts := isStmt_of_derives hd hspelled
  obtain ⟨f, u, hrow⟩ := stmtTo_of_analyze hts ha
  have hss : ∀ s ∈ ss, Node.IsStmt s := hrow.formed
  have hsound : EverywhereIn Sound [] ss := hrow.sound backed_root
  refine ⟨sound_of_everywhereIn hsound, _, Node.optimize_program hss, ?_⟩
  exact sound_of_everywhereIn (Node.everywhereIn_simplified Node.steady_sound hss hsound)

/-- A function that is declared in a loop and starts with a loop that ends at once. -/
def leavesOwnLoop : List Node → Bool
  | [.whileLoop _ (.function _ _ (.whileLoop _ [.breakLoop] :: _) :: _)] => true
  | _ => false

theorem lies_of_leavesOwnLoop {ss : List Node} (h : leavesOwnLoop ss) :
    Lies (program ss) [.loop, .function, .loop] .breakLoop := by
  unfold leavesOwnLoop at h
  split at h
  · rename_i outer g params inner rest others
    have hinner := Lies.part (n := .whileLoop inner [.breakLoop]) (r := some .loop)
      (List.mem_cons_of_mem _ List.mem_cons_self) .here
    have hbody := Lies.part (n := .function g params (.whileLoop inner [.breakLoop] :: rest))
      (r := some .function)
      (List.mem_cons_of_mem _ (List.mem_append_right _ List.mem_cons_self)) hinner
    have houter := Lies.part
      (n := .whileLoop outer (.function g params (.whileLoop inner [.breakLoop] :: rest) :: others))
      (r := some .loop) (List.mem_cons_of_mem _ List.mem_cons_self) hbody
    exact .part (r := none) List.mem_cons_self houter
  · contradiction

/-- A loop in a function in a loop. -/
theorem sound_everywhere_nested :
    ∃ ts tree ss ss', Derives language .program ts [tree] ∧ analyze tree = .ok ss ∧
      Lies (program ss) [.loop, .function, .loop] .breakLoop ∧
      (∀ path n, Lies (program ss) path n → Sound path n) ∧
      (program ss).optimize = .ok (program ss') ∧
      ∀ path n, Lies (program ss') path n → Sound path n := by
  obtain ⟨tree, ss, hp, ha, hleaves⟩ := exists_of_resolvesTo
    (show resolvesTo "w true: f g(n) => w n > 0: br; r n; ? false: ct; ! : log(g(1));;"
      leavesOwnLoop from by decide +kernel)
  obtain ⟨ts, rest, hts, hd⟩ := derives_of_parse hp
  have hspelled : ∀ t ∈ ts, t.Spelled := by
    intro t ht
    exact spelled_lex _ t (hts ▸ List.mem_append_left rest ht)
  obtain ⟨hsound, ss', ho, hsound'⟩ := sound_everywhere hd hspelled ha
  exact ⟨ts, tree, ss, ss', hd, ha, lies_of_leavesOwnLoop hleaves, hsound, ho, hsound'⟩

end Terse
