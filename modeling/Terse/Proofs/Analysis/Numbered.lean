import Terse.Proofs.Analysis.Scoped
import Terse.Proofs.Node.Occurs

/-! Declared symbols are counted from one on in the order of the text, and simplification keeps that
order. -/
namespace Terse

open Node (Occurs WellScoped declaredBlock program)

theorem uid_of_mem_library {s : Symbol} (h : s ∈ Symbol.library) : s.uid = 0 := by
  revert s
  decide

namespace Analysis

variable {ss : List Symbol} {s : Symbol} {u u' : Nat}

theorem Numbered.le_uid (h : Numbered ss u u') (hs : s ∈ ss) : u ≤ s.uid := by
  have hmem : s.uid ∈ List.range' u (u' - u) := h.2 ▸ List.mem_map_of_mem hs
  exact (List.mem_range'_1.1 hmem).1

theorem Numbered.increasing (h : Numbered ss u u') : (ss.map (·.uid)).Pairwise (· < ·) := by
  rw [h.2]
  exact List.pairwise_lt_range'

end Analysis

/-- Resolution gives the numbers from one on, each to one declaration. -/
theorem numbered_of_analyze {P : Token → Prop} {tree : Tree} {ss : List Node}
    (h : ∀ t ∈ tree.kids, Tree.IsStmt P t) (ha : analyze tree = .ok ss) :
    ∃ n, Analysis.Numbered (declaredBlock ss) 1 (n + 1) := by
  obtain ⟨f, u, hrow⟩ := stmtTo_of_analyze h ha
  have hnumbered : Analysis.Numbered (declaredBlock ss) 1 u := hrow.numbered
  obtain ⟨n, rfl⟩ := Nat.exists_eq_add_of_le' hnumbered.1
  exact ⟨n, hnumbered⟩

/-- In a closed program whose declarations have numbers above zero, zero means the library. -/
theorem uid_eq_zero_iff {ss : List Node} {s : Symbol} (hss : ∀ m ∈ ss, Node.IsStmt m)
    (hscoped : WellScoped ss) (hpos : ∀ d ∈ declaredBlock ss, 1 ≤ d.uid)
    (hs : Occurs s (program ss)) : s.uid = 0 ↔ s ∈ Symbol.library := by
  refine ⟨fun hzero => ?_, uid_of_mem_library⟩
  rcases Node.mem_of_occurs_program hss hscoped hs with hl | hd
  · exact hl
  · have := hpos s hd
    omega

/-- The declarations of a resolved program have the numbers from one on, in order and without a gap.
What is used has the number zero if and only if it is of the library. The declarations that
simplification leaves are some of them, still in order. -/
theorem declared_numbered_in_order {ts : List Token} {tree : Tree} {ss : List Node}
    (hd : Derives language .program ts [tree]) (hspelled : ∀ t ∈ ts, t.Spelled)
    (ha : analyze tree = .ok ss) :
    (∃ n, (declaredBlock ss).map (·.uid) = List.range' 1 n) ∧
    (∀ s, Occurs s (program ss) → (s.uid = 0 ↔ s ∈ Symbol.library)) ∧
    ∃ ss', (program ss).optimize = .ok (program ss') ∧
      ((declaredBlock ss').map (·.uid)).Sublist ((declaredBlock ss).map (·.uid)) ∧
      ((declaredBlock ss').map (·.uid)).Pairwise (· < ·) ∧
      ∀ s, Occurs s (program ss') → (s.uid = 0 ↔ s ∈ Symbol.library) := by
  have hts := isStmt_of_derives hd hspelled
  obtain ⟨n, hnumbered⟩ := numbered_of_analyze hts ha
  obtain ⟨f, u, hrow⟩ := stmtTo_of_analyze hts ha
  have hss : ∀ m ∈ ss, Node.IsStmt m := hrow.formed
  have hscoped : WellScoped ss := hrow.scoped visible_root
  have hfault := Node.blockFault?_block hss
  have hpos : ∀ d ∈ declaredBlock ss, 1 ≤ d.uid := fun _ hd => hnumbered.le_uid hd
  have hfewer := Node.declaredBlock_simplifyBlock ss hfault
  refine ⟨⟨n, by simpa using hnumbered.2⟩, fun s hs => uid_eq_zero_iff hss hscoped hpos hs, _,
    Node.optimize_program hss, hfewer.map _, hnumbered.increasing.sublist (hfewer.map _), ?_⟩
  intro s hs
  refine uid_eq_zero_iff (Node.isStmt_simplified hss)
    (Node.scopedBlock_simplifyBlock ss hfault hscoped) ?_ hs
  exact fun d hd => hpos d (hfewer.subset hd)

/-- A function with a loop, a guarded block with its handler, and a choice of which one side
goes. -/
theorem declared_numbered_in_order_nested :
    ∃ ts tree ss ss', Derives language .program ts [tree] ∧ (∀ t ∈ ts, t.Spelled) ∧
      analyze tree = .ok ss ∧ (declaredBlock ss).map (·.uid) = [1, 2, 3, 4, 5, 6, 7] ∧
      (∀ s, Occurs s (program ss) → (s.uid = 0 ↔ s ∈ Symbol.library)) ∧
      (program ss).optimize = .ok (program ss') ∧
      ((declaredBlock ss').map (·.uid)).Pairwise (· < ·) := by
  obtain ⟨tree, ss, hp, ha, huids⟩ := exists_of_resolvesTo
    (show resolvesTo ("f g(a) => i in 0,#a: t: y = a[i] th g(y); e(err): log(err);;;" ++
      "? 1 > 2: z = 1 log(z);! : z = 2;")
      (fun ss => (declaredBlock ss).map (·.uid) == [1, 2, 3, 4, 5, 6, 7]) from by decide +kernel)
  obtain ⟨ts, rest, hts, hd⟩ := derives_of_parse hp
  have hspelled : ∀ t ∈ ts, t.Spelled := by
    intro t ht
    exact spelled_lex _ t (hts ▸ List.mem_append_left rest ht)
  obtain ⟨-, hzero, ss', ho, -, hincreasing, -⟩ := declared_numbered_in_order hd hspelled ha
  exact ⟨ts, tree, ss, ss', hd, hspelled, ha, beq_iff_eq.1 huids, hzero, ho, hincreasing⟩

end Terse
