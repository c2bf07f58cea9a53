import Terse.Analysis
import Terse.Proofs.Tree.Formed

/-! How the steps of name resolution end: each either gives a result that is described here, or
fails with an error that is allowed. -/
namespace Terse

/-- The name that an error is about. -/
def Cause.name? : Cause → Option String
  | duplicate name | undeclared name | notCallable name | notVariable name => some name
  | _ => none

theorem Cause.isSyntax_of_name? {c : Cause} {name : String} (h : c.name? = some name) :
    c.isSyntax = false := by
  cases c with
  | noTerminal | unexpected | endOfInput => contradiction
  | _ => rfl

namespace Analysis

variable {α β : Type}

/-- The walk gives a result of which `Q` holds, or fails with an error of which `E` holds. -/
def Ends (E : AnalysisError → Prop) (w : Walk α) (s : State) (Q : α → State → Prop) : Prop :=
  match w s with
  | .ok (a, s') => Q a s'
  | .error e => E e

/-- Errors that a tree may lead to whose kept tokens have `P` and whose places have `L`: those of
names, each at the name, those of other places, and those of reading its literals. -/
structure Allows (P : Token → Prop) (L : Option Loc → Prop) (E : AnalysisError → Prop) : Prop where
  named {t : Token} {cause : Cause} :
    t.Is P .name → cause.name? = some t.text → E (.compile ⟨cause, t.loc⟩)
  placed {loc : Option Loc} {cause : Cause} :
    L loc → cause.isSyntax = false → cause.name? = none → E (.compile ⟨cause, loc⟩)
  numeral {t : Token} {e : NumeralError} :
    t.Is P .number → Numeral.read t.text.toList = .error e → E (.numeral e)
  escape {t : Token} {e : EscapeError} :
    t.Is P .string → Literal.value t.text.toList = .error e → E (.escape e)

variable {E : AnalysisError → Prop} {s : State} {Q : α → State → Prop} {R : β → State → Prop}

theorem ends_pure {a : α} (h : Q a s) : Ends E (pure a) s Q := h

theorem ends_get : Ends E get s fun a s' => a = s ∧ s' = s := ⟨rfl, rfl⟩

/-- Two walks in turn: what the first one ends with is what the second one starts with. -/
theorem ends_bind {w : Walk α} {f : α → Walk β} (h : Ends E w s Q)
    (hf : ∀ a s', Q a s' → Ends E (f a) s' R) : Ends E (w >>= f) s R := by
  unfold Ends at h ⊢
  have hbind : (w >>= f) s = (w s >>= fun p => f p.1 p.2) := rfl
  rw [hbind]
  cases hw : w s with
  | error e =>
    rw [hw] at h
    exact h
  | ok p =>
    rw [hw] at h
    exact hf p.1 p.2 h

/-- A step that leaves the state as it is. -/
theorem ends_stay {w : Walk α} {f : α → Walk β} {T : α → Prop}
    (h : Ends E w s fun a s' => s' = s ∧ T a) (hf : ∀ a, T a → Ends E (f a) s R) :
    Ends E (w >>= f) s R := by
  refine ends_bind h ?_
  rintro a _ ⟨rfl, ha⟩
  exact hf a ha

theorem ends_map {w : Walk α} {f : α → β} (h : Ends E w s Q)
    (hf : ∀ a s', Q a s' → R (f a) s') : Ends E (f <$> w) s R :=
  ends_bind h fun a s' ha => ends_pure (hf a s' ha)

theorem Ends.mono {w : Walk α} {Q' : α → State → Prop} (h : Ends E w s Q)
    (hQ : ∀ a s', Q a s' → Q' a s') : Ends E w s Q' := by
  unfold Ends at h ⊢
  split at h
  · exact hQ _ _ h
  · exact h

/-- A walk that ended without an error. -/
theorem Ends.of_ok {w : Walk α} {a : α} {s' : State} (h : Ends E w s Q) (hw : w s = .ok (a, s')) :
    Q a s' := by
  rw [Ends, hw] at h
  exact h

theorem Ends.of_error {w : Walk α} {e : AnalysisError} (h : Ends E w s Q) (hw : w s = .error e) :
    E e := by
  rw [Ends, hw] at h
  exact h

/-- What a walk of its own scope leaves behind. -/
theorem ends_inside {frame : Frame} {w : Walk α}
    (h : Ends E w ⟨frame :: s.scope, s.nextUid⟩ fun a s' => Q a ⟨s'.scope.tail, s'.nextUid⟩) :
    Ends E (inside frame w) s Q := by
  refine ends_bind (Q := fun _ s' => s' = ⟨frame :: s.scope, s.nextUid⟩) rfl ?_
  rintro _ _ rfl
  exact ends_bind h fun a s' hs' => ends_bind (R := Q)
    (Q := fun _ s₁ => s₁ = ⟨s'.scope.tail, s'.nextUid⟩) rfl fun _ _ h => h ▸ ends_pure hs'

variable {P : Token → Prop} {L : Option Loc → Prop} {t : Token} {outer : Scope} {f : Frame}
  {u : Nat}

theorem ends_here : Ends E here ⟨f :: outer, u⟩ fun g s' => g = f ∧ s' = ⟨f :: outer, u⟩ :=
  ⟨rfl, rfl⟩

theorem ends_blockFrame : Ends E blockFrame ⟨f :: outer, u⟩ fun g s' =>
    g = f.child none none ∧ s' = ⟨f :: outer, u⟩ := ⟨rfl, rfl⟩

theorem ends_loopFrame : Ends E loopFrame ⟨f :: outer, u⟩ fun g s' =>
    g = f.child (some true) none ∧ s' = ⟨f :: outer, u⟩ := ⟨rfl, rfl⟩

theorem ends_fail {cause : Cause} (hE : Allows P L E) (ht : t.Is P .name)
    (h : cause.name? = some t.text) : Ends E (fail cause t.loc : Walk α) s Q := hE.named ht h

/-- A name resolves to what lookup finds, or the error names it. -/
theorem ends_resolve (hE : Allows P L E) (ht : t.Is P .name) :
    Ends E (resolve (.token t)) s fun sym s' => s' = s ∧ s.scope.lookup t.text = some sym := by
  refine ends_bind (Q := fun found s' => s' = s ∧ s.scope.lookup t.text = found) ⟨rfl, rfl⟩ ?_
  rintro found _ ⟨rfl, hfound⟩
  cases found with
  | none => exact ends_fail hE ht rfl
  | some sym => exact ends_pure ⟨rfl, hfound⟩

theorem ends_resolveVariable (hE : Allows P L E) (ht : t.Is P .name) :
    Ends E (resolveVariable (.token t)) s fun sym s' =>
      s' = s ∧ s.scope.lookup t.text = some sym ∧ sym.isFunction = false := by
  refine ends_stay (ends_resolve hE ht) fun sym hsym => ?_
  split
  · exact ends_fail hE ht rfl
  · rename_i hf
    exact ends_pure ⟨rfl, hsym, Bool.eq_false_iff.2 hf⟩

/-- The symbol that a token declares as the `u`th of a program. -/
def fresh (t : Token) (u : Nat) (kind : SymbolKind) : Symbol := ⟨t.text, u, kind, .declared u⟩

/-- A declaration takes the next number, or the error names what is declared already. -/
theorem ends_declare (hE : Allows P L E) (ht : t.Is P .name) (kind : SymbolKind) :
    Ends E (declare (.token t) kind) ⟨f :: outer, u⟩ fun sym s' =>
      ∃ f', f.declare (fresh t u kind) t.loc = .ok f' ∧ sym = fresh t u kind ∧
        s' = ⟨f' :: outer, u + 1⟩ := by
  refine ends_bind ends_get ?_
  rintro _ _ ⟨rfl, rfl⟩
  dsimp only
  split
  · rename_i e hf
    replace hf : f.declare (fresh t u kind) t.loc = .error e := hf
    unfold Frame.declare at hf
    split at hf
    · obtain rfl := Except.error.inj hf
      exact hE.named ht rfl
    · contradiction
  · rename_i f' hf
    exact ⟨f', hf, rfl, rfl⟩

/-- Variables that tokens declare one after another, and what they leave behind. -/
inductive Introduced : List Token → Frame → Nat → List Symbol → Frame → Nat → Prop
  | nil {f : Frame} {u : Nat} : Introduced [] f u [] f u
  | cons {t : Token} {ts : List Token} {f f₁ f' : Frame} {u u' : Nat} {vs : List Symbol} :
      f.declare (fresh t u (.var false)) t.loc = .ok f₁ → Introduced ts f₁ (u + 1) vs f' u' →
      Introduced (t :: ts) f u (fresh t u (.var false) :: vs) f' u'

/-- Parameters are declared in order, and all in the same frame. -/
theorem ends_declareVariables (hE : Allows P L E) {ts : List Token} (hts : ∀ t ∈ ts, t.Is P .name) :
    Ends E (declareVariables (ts.map .token)) ⟨f :: outer, u⟩ fun ns s' =>
      ∃ vs f' u', Introduced ts f u vs f' u' ∧ ns = vs.map .symbol ∧ s' = ⟨f' :: outer, u'⟩ := by
  induction ts generalizing f u with
  | nil => exact ends_pure ⟨[], f, u, .nil, rfl, rfl⟩
  | cons t ts ih =>
    obtain ⟨ht, hts⟩ := List.forall_mem_cons.1 hts
    refine ends_bind (ends_declare hE ht _) ?_
    rintro _ _ ⟨f₁, hf₁, rfl, rfl⟩
    refine ends_bind (ih hts) ?_
    rintro _ _ ⟨vs, f', u', hvs, rfl, rfl⟩
    exact ends_pure ⟨_, f', u', .cons hf₁ hvs, rfl, rfl⟩

theorem ends_readNumber (hE : Allows P L E) (ht : t.Is P .number) :
    Ends E (readNumber t.text) s fun n s' =>
      s' = s ∧ ∃ a, Numeral.read t.text.toList = .ok a ∧ n = .number a := by
  unfold readNumber
  split
  · rename_i a ha
    exact ends_pure ⟨rfl, a, ha, rfl⟩
  · rename_i e he
    exact hE.numeral ht he

theorem ends_readString (hE : Allows P L E) (ht : t.Is P .string) :
    Ends E (readString t.text) s fun n s' =>
      s' = s ∧ ∃ v, Literal.value t.text.toList = .ok v ∧ n = .string v := by
  unfold readString
  split
  · rename_i v hv
    exact ends_pure ⟨rfl, v, hv, rfl⟩
  · rename_i e he
    exact hE.escape ht he

/-- A loop is required, and nothing changes. -/
theorem ends_requireLoop {cause : Cause} (hE : Allows P L E) (ht : L t.loc)
    (h : cause.isSyntax = false) (hname : cause.name? = none) :
    Ends E (requireLoop cause (.token t)) ⟨f :: outer, u⟩ fun _ s' =>
      s' = ⟨f :: outer, u⟩ ∧ f.inLoop := by
  refine ends_bind ends_here ?_
  rintro _ _ ⟨rfl, rfl⟩
  split
  · rename_i hf
    exact ends_pure ⟨rfl, hf⟩
  · exact hE.placed ht h hname

/-- A function is required, and nothing changes. -/
theorem ends_requireFunction (hE : Allows P L E) (ht : L t.loc) :
    Ends E (requireFunction (.token t)) ⟨f :: outer, u⟩ fun _ s' =>
      s' = ⟨f :: outer, u⟩ ∧ f.function.isSome := by
  refine ends_bind ends_here ?_
  rintro _ _ ⟨rfl, rfl⟩
  split
  · exact hE.placed ht rfl rfl
  · rename_i hf
    exact ends_pure ⟨rfl, by simpa [Option.isSome_iff_ne_none] using hf⟩

end Analysis

end Terse
