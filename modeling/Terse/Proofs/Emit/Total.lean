import Terse.Dump
import Terse.Emit.Code
import Terse.Proofs.Node.Scoping

/-! Programs that are closed can be emitted, and every resolved program can be shown. -/
namespace Terse

/-- All symbols have a name in the target language. -/
def Symbol.Named (Γ : List Symbol) : Prop := ∀ s ∈ Γ, s.target?.isSome

theorem Symbol.named_library : Named library := by
  unfold Named
  decide

theorem Symbol.isSome_target? {s : Symbol} (h : s.isIntrinsic = false) : s.target?.isSome := by
  simp [target?, h]

theorem Symbol.Named.append {Γ Δ : List Symbol} (hΓ : Named Γ) (hΔ : Named Δ) : Named (Γ ++ Δ) :=
  List.forall_mem_append.2 ⟨hΓ, hΔ⟩

namespace Outline

@[simp]
theorem hasForeign_plain (title : String) (parts : List Part) :
    (plain title parts).hasForeign = partsForeign parts := rfl

@[simp]
theorem hasForeign_titled (title label : String) (attributes : List (String × String))
    (parts : List Part) :
    (titled title label attributes parts).hasForeign = partsForeign parts := rfl

@[simp]
theorem hasForeign_list (items : List Outline) :
    (list items).hasForeign = itemsForeign items := rfl

@[simp]
theorem partsForeign_nil : partsForeign [] = false := rfl

@[simp]
theorem partsForeign_cons (field : String) (value : Outline) (parts : List Part) :
    partsForeign (⟨field, value⟩ :: parts) = (value.hasForeign || partsForeign parts) := rfl

end Outline

namespace Node

open Terse.Symbol (Named)

variable {Γ : List Symbol}

theorem symbolFault?_eq_none {s : Symbol} (h : s.target?.isSome) :
    symbolFault? (symbol s) = none := by
  simp [symbolFault?, h]

theorem spellingFault?_eq_none {op : UnOp} (h : op ∈ UnOp.known) : spellingFault? op = none := by
  revert op
  decide

theorem exprsFault?_eq_none {es : List Node} (h : ∀ e ∈ es, exprFault? e = none) :
    exprsFault? es = none := by
  induction es with
  | nil => rfl
  | cons e es ih =>
    rw [exprsFault?, h e List.mem_cons_self, ih fun e he => h e (List.mem_cons_of_mem _ he)]
    rfl

theorem symbolsAll_mem {es : List Node} {e : Node} (he : e ∈ es) : e.symbols ⊆ symbolsAll es := by
  rw [symbolsAll_eq]
  exact fun s hs => List.mem_flatMap.2 ⟨e, he, hs⟩

/-- An expression over symbols that can be written has no fault. -/
theorem IsExp.exprFault?_eq_none {k : ExpSort} {n : Node} (h : IsExp k n) (hΓ : Named Γ)
    (hs : n.symbols ⊆ Γ) : n.exprFault? = none := by
  induction h with
  | number | string | boolean => rfl
  | symbol s => exact symbolFault?_eq_none (hΓ s (hs List.mem_cons_self))
  | conditional _ _ _ iht ihy ihn =>
    simp only [symbols, List.append_subset] at hs
    simp [exprFault?, iht hs.1.1, ihy hs.1.2, ihn hs.2]
  | binary _ _ _ ihl ihr =>
    simp only [symbols, List.append_subset] at hs
    simp [exprFault?, ihl hs.1, ihr hs.2]
  | unary ho _ ih => simp [exprFault?, ih hs, spellingFault?_eq_none ho]
  | array _ ih | dict _ ih =>
    exact exprsFault?_eq_none fun e he => ih e he (List.Subset.trans (symbolsAll_mem he) hs)
  | dictItem _ ih | member _ _ ih => exact ih hs
  | subscript _ _ ihc ihi =>
    simp only [symbols, List.append_subset] at hs
    simp [exprFault?, ihc hs.1, ihi hs.2]
  | @call f args _ ih =>
    have hargs := exprsFault?_eq_none fun e he =>
      ih e he (List.Subset.trans (symbolsAll_mem he) (List.append_subset.1 hs).2)
    have hf := symbolFault?_eq_none (hΓ f (hs List.mem_cons_self))
    simp [exprFault?, hargs, hf]

/-- What a statement declares has a name, since it is no part of the library. -/
theorem IsStmt.named_declares {s : Node} (h : IsStmt s) : Named (declares s) := fun x hx =>
  Symbol.isSome_target? (h.isIntrinsic_of_declared x ((declares_sublist_declared s).subset hx))

theorem stmtsFault?_of_scoped {ss : List Node} (hs : ∀ s ∈ ss, IsStmt s)
    (hf : ∀ s ∈ ss, ∀ {Γ}, Named Γ → Scoped s Γ → stmtFault? s = none) (hΓ : Named Γ)
    (h : ScopedBlock ss Γ) : stmtsFault? ss = none := by
  induction ss generalizing Γ with
  | nil => rfl
  | cons s ss ih =>
    obtain ⟨hs, hss⟩ := List.forall_mem_cons.1 hs
    obtain ⟨hf, hfs⟩ := List.forall_mem_cons.1 hf
    rw [stmtsFault?, hf hΓ h.1, ih hss hfs (hs.named_declares.append hΓ) h.2]
    rfl

theorem named_params {params : List Symbol} (h : ∀ p ∈ params, p.isWritable) : Named params :=
  fun p hp => Symbol.isSome_target? (isIntrinsic_of_isWritable (h p hp))

theorem named_singleton {v : Symbol} (h : v.isIntrinsic = false) : Named [v] :=
  List.forall_mem_singleton.2 (Symbol.isSome_target? h)

theorem exprsFault?_params {params : List Symbol} (h : Named params) :
    exprsFault? (params.map symbol) = none :=
  exprsFault?_eq_none <| List.forall_mem_map.2 fun p hp => symbolFault?_eq_none (h p hp)

/-- A statement can be emitted wherever all in sight has a name. -/
theorem IsStmt.stmtFault?_eq_none {s : Node} (h : IsStmt s) (hΓ : Named Γ) (hg : Scoped s Γ) :
    s.stmtFault? = none := by
  induction h generalizing Γ with
  | declare hw he =>
    have hv := symbolFault?_eq_none (Symbol.isSome_target? (isIntrinsic_of_isWritable hw))
    simp [stmtFault?, exprFault?, hv, he.exprFault?_eq_none hΓ hg]
  | assign _ ht he =>
    simp [stmtFault?, ht.exprFault?_eq_none hΓ hg.1, he.exprFault?_eq_none hΓ hg.2]
  | print he | returnValue he | throwValue he | callAlone _ he => exact he.exprFault?_eq_none hΓ hg
  | incr he | decr he => simpa [stmtFault?] using he.exprFault?_eq_none hΓ hg
  | breakLoop | continueLoop | returnNone => rfl
  | ifElse ht hy hn ihy ihn =>
    simp [stmtFault?, ht.exprFault?_eq_none hΓ hg.1, stmtsFault?_of_scoped hy ihy hΓ hg.2.1,
      stmtsFault?_of_scoped hn ihn hΓ hg.2.2]
  | @ifChain test next yes ht hy hc _ ihy ihn =>
    have hnext := ihn hΓ hg.2.2
    have hyes := stmtsFault?_of_scoped hy ihy hΓ hg.2.1
    have htest := ht.exprFault?_eq_none hΓ hg.1
    cases next <;> simp_all [isChoice, stmtFault?]
  | ifOnly ht hb ihb | whileLoop ht hb ihb | repeatLoop ht hb ihb =>
    simp [stmtFault?, ht.exprFault?_eq_none hΓ hg.1, stmtsFault?_of_scoped hb ihb hΓ hg.2]
  | rangeLoop hw hl hh hs hb ihb =>
    have hv := named_singleton (isIntrinsic_of_isWritable hw)
    simp [stmtFault?, exprFault?, symbolFault?_eq_none (hv _ List.mem_cons_self),
      hl.exprFault?_eq_none hΓ hg.1, hh.exprFault?_eq_none hΓ hg.2.1,
      hs.exprFault?_eq_none hΓ hg.2.2.1, stmtsFault?_of_scoped hb ihb (hv.append hΓ) hg.2.2.2]
  | eachLoop hw hc hb ihb =>
    have hv := named_singleton (isIntrinsic_of_isWritable hw)
    simp [stmtFault?, exprFault?, symbolFault?_eq_none (hv _ List.mem_cons_self),
      hc.exprFault?_eq_none hΓ hg.1, stmtsFault?_of_scoped hb ihb (hv.append hΓ) hg.2]
  | tryCatch hp hb hh ihb ihh =>
    rw [Scoped, symbolsAll_symbols] at hg
    have hps := named_params hp
    simp [stmtFault?, exprsFault?_params hps, stmtsFault?_of_scoped hb ihb hΓ hg.1,
      stmtsFault?_of_scoped hh ihh (hps.append hΓ) hg.2]
  | function _ hi hp hb ihb =>
    -- a function sees its parameters and itself
    rw [Scoped, symbolsAll_symbols] at hg
    have hps := named_params hp
    have hf := named_singleton hi
    simp [stmtFault?, exprsFault?_params hps, symbolFault?_eq_none (hf _ List.mem_cons_self),
      stmtsFault?_of_scoped hb ihb ((hps.append hf).append hΓ) hg]

/-- A well scoped program can be emitted. -/
theorem emit_program {ss : List Node} (hs : ∀ s ∈ ss, IsStmt s) (h : WellScoped ss) :
    ∃ code, (program ss).emit = .ok code := by
  have hf : stmtsFault? ss = none :=
    stmtsFault?_of_scoped hs (fun s hm _ hΓ => (hs s hm).stmtFault?_eq_none hΓ)
      Symbol.named_library h
  exact ⟨_, by rw [emit, hf]⟩

open Outline (itemsForeign)

theorem itemsForeign_eq_false {ns : List Node} (h : ∀ n ∈ ns, n.outline.hasForeign = false) :
    itemsForeign (outlines ns) = false := by
  induction ns with
  | nil => rfl
  | cons n ns ih =>
    have hns := ih fun n hn => h n (List.mem_cons_of_mem _ hn)
    rw [outlines, itemsForeign, h n List.mem_cons_self, hns]
    rfl

@[simp]
theorem hasForeign_symbol (s : Symbol) : s.outline.hasForeign = false := by
  unfold Symbol.outline
  split <;> rfl

@[simp]
theorem itemsForeign_params (params : List Symbol) :
    itemsForeign (outlines (params.map symbol)) = false :=
  itemsForeign_eq_false <| List.forall_mem_map.2 fun p _ => hasForeign_symbol p

theorem IsExp.hasForeign_eq_false {k : ExpSort} {n : Node} (h : IsExp k n) :
    n.outline.hasForeign = false := by
  induction h with
  | number | string | boolean => rfl
  | symbol s => exact hasForeign_symbol s
  | conditional _ _ _ iht ihy ihn => simp [outline, iht, ihy, ihn]
  | binary _ _ _ ihl ihr => simp [outline, ihl, ihr]
  | unary _ _ ih | dictItem _ ih | member _ _ ih => simp [outline, ih]
  | array _ ih | dict _ ih | call _ ih => simp [outline, itemsForeign_eq_false ih]
  | subscript _ _ ihc ihi => simp [outline, ihc, ihi]

/-- The outline of a statement holds nothing foreign. -/
theorem IsStmt.hasForeign_eq_false {s : Node} (h : IsStmt s) : s.outline.hasForeign = false := by
  induction h with
  | breakLoop | continueLoop | returnNone => rfl
  | declare _ he => simp [outline, he.hasForeign_eq_false]
  | assign _ ht he => simp [outline, ht.hasForeign_eq_false, he.hasForeign_eq_false]
  | print he | returnValue he | throwValue he | callAlone _ he | incr he | decr he =>
    simp [outline, he.hasForeign_eq_false]
  | ifElse ht _ _ ihy ihn =>
    simp [outline, ht.hasForeign_eq_false, itemsForeign_eq_false ihy, itemsForeign_eq_false ihn]
  | ifChain ht _ _ _ ihy ihn =>
    simp [outline, ht.hasForeign_eq_false, itemsForeign_eq_false ihy, ihn]
  | ifOnly ht _ ihb | whileLoop ht _ ihb | repeatLoop ht _ ihb =>
    simp [outline, ht.hasForeign_eq_false, itemsForeign_eq_false ihb]
  | rangeLoop _ hl hh hs _ ihb =>
    simp [outline, hl.hasForeign_eq_false, hh.hasForeign_eq_false, hs.hasForeign_eq_false,
      itemsForeign_eq_false ihb]
  | eachLoop _ hc _ ihb => simp [outline, hc.hasForeign_eq_false, itemsForeign_eq_false ihb]
  | tryCatch _ _ _ ihb ihh =>
    simp [outline, itemsForeign_eq_false ihb, itemsForeign_eq_false ihh]
  | function _ _ _ _ ihb => simp [outline, itemsForeign_eq_false ihb]

/-- A program of statements can be dumped. -/
theorem dump?_program {ss : List Node} (hs : ∀ s ∈ ss, IsStmt s) :
    ∃ text, (program ss).dump? = some text := by
  have hitems := itemsForeign_eq_false fun s hm => (hs s hm).hasForeign_eq_false
  have hforeign : (program ss).outline.hasForeign = false := by simp [outline, hitems]
  exact ⟨_, by rw [dump?, if_neg (Bool.eq_false_iff.1 hforeign)]⟩

end Node

end Terse
