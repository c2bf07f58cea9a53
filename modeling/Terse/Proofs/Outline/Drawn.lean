import Terse.Graph
import Terse.Proofs.Emit.Layout
import Terse.Proofs.Outline.Tree

/-! A graph shows a tree as it is: its vertices are the nodes in order, and its edges lead from each
node to its children. -/
namespace Terse

/-! ### Vertices and edges -/

namespace GraphLine

def vertex? : GraphLine → Option (Nat × String)
  | vertex id label => some (id, label)
  | edge .. => none

/-- Where an edge leads to. -/
def target? : GraphLine → Option Nat
  | vertex .. => none
  | edge _ target _ => some target

end GraphLine

namespace Node

/-- The node that child numbers lead to from a node. -/
def at? : List Nat → Node → Option Node
  | [], n => some n
  | j :: path, n => n.children[j]?.bind fun c => at? path c.2

/-- A node with its number in a graph, and the child numbers that lead to it. -/
structure Vertex where
  id : Nat
  path : List Nat
  node : Node

/-- `IsArc vs source target label`: one vertex is a child of another, in the part that the label
names. -/
def IsArc (vs : List Vertex) (source target : Nat) (label : String) : Prop :=
  ∃ v ∈ vs, ∃ w ∈ vs, v.id = source ∧ w.id = target ∧
    ∃ j, w.path = v.path ++ [j] ∧ v.node.children[j]? = some (label, w.node)

/-- `Drawing n id lines vs`: the lines draw `n` from number `id` on, and `vs` are its vertices. -/
structure Drawing (n : Node) (id : Nat) (lines : List GraphLine) (vs : List Vertex) : Prop where
  root : vs.head? = some ⟨id, [], n⟩
  /-- Every place of the tree is a vertex, with the node that is there. -/
  places (path : List Nat) (m : Node) : at? path n = some m ↔ ∃ v ∈ vs, v.path = path ∧ v.node = m
  /-- A node comes before its children and all below them, and those before the next child. -/
  ordered : vs.Pairwise fun v w => List.Lex (· < ·) v.path w.path
  nodes : vs.map (·.node) = n.within
  numbered : vs.map (·.id) = List.range' id vs.length
  declared : lines.filterMap GraphLine.vertex? = vs.map fun v => (v.id, v.node.outline.label)
  /-- One edge leads to each vertex but the first. -/
  targets : (lines.filterMap GraphLine.target?).Perm (List.range' (id + 1) (vs.length - 1))
  /-- Edges lead from a node to its children, and so to a greater number. -/
  edges {source target : Nat} {label : String} : .edge source target label ∈ lines →
    source < target ∧ IsArc vs source target label

/-! ### Drawing child after child -/

/-- The lines below a vertex, and the next free number. -/
def drawAll (parent : Nat) : List (String × Node) → Nat → List GraphLine × Nat
  | [], next => ([], next)
  | (field, n) :: cs, next =>
    let drawn := n.outline.draw next
    let more := drawAll parent cs drawn.2
    (drawn.1 ++ .edge parent next field :: more.1, more.2)

variable {n : Node} {parent id next : Nat}

theorem drawAll_append (cs ds : List (String × Node)) :
    drawAll parent (cs ++ ds) next =
      ((drawAll parent cs next).1 ++ (drawAll parent ds (drawAll parent cs next).2).1,
        (drawAll parent ds (drawAll parent cs next).2).2) := by
  induction cs generalizing next with
  | nil => rfl
  | cons c cs ih => simp [drawAll, ih]

theorem drawItems_eq (field : String) (ns : List Node) :
    Outline.drawItems parent field (ns.map outline) next =
      drawAll parent (ns.map (field, ·)) next := by
  induction ns generalizing next with
  | nil => rfl
  | cons n ns ih => simp [Outline.drawItems, drawAll, ih]

theorem drawParts_list (field : String) (items : List Outline) (parts : List Part) :
    Outline.drawParts parent (⟨field, .list items⟩ :: parts) next =
      ((Outline.drawItems parent field items next).1 ++
          (Outline.drawParts parent parts (Outline.drawItems parent field items next).2).1,
        (Outline.drawParts parent parts (Outline.drawItems parent field items next).2).2) := rfl

theorem drawParts_node (h : n.isKnown) (field : String) (parts : List Part) :
    Outline.drawParts parent (⟨field, n.outline⟩ :: parts) next =
      ((n.outline.draw next).1 ++ [.edge parent next field] ++
          (Outline.drawParts parent parts (n.outline.draw next).2).1,
        (Outline.drawParts parent parts (n.outline.draw next).2).2) := by
  rw [outline_eq h]
  rfl

theorem drawParts_eq {fs : List (String × Node)} (h : ∀ f ∈ fs, IsBranch f.2) :
    Outline.drawParts parent (fs.map fun f => ⟨f.1, f.2.outline⟩) next =
      drawAll parent (fs.flatMap fun f => f.2.items.map (f.1, ·)) next := by
  induction fs generalizing next with
  | nil => rfl
  | cons f fs ih =>
    obtain ⟨hf, hfs⟩ := List.forall_mem_cons.1 h
    rw [List.map_cons, List.flatMap_cons, drawAll_append]
    obtain ⟨ns, hns⟩ | hv := list_or_isKnown fun m hm => (hf m hm).isKnown
    · rw [hns, outline_list, drawParts_list, drawItems_eq, ih hfs, items]
    · rw [drawParts_node hv, ih hfs, items_of_isKnown hv]
      rfl

theorem draw_eq (h : IsTree n) (id : Nat) : n.outline.draw id =
    (.vertex id n.outline.label :: (drawAll id n.children (id + 1)).1,
      (drawAll id n.children (id + 1)).2) := by
  rw [outline_eq h.isKnown, Outline.draw, drawParts_eq (isTree_iff.1 h).2, ← outline_eq h.isKnown]
  rfl

/-! ### What is drawn -/

/-- The same for the children `cs` of a vertex, the first of which is child number `j`. -/
structure DrawingAll (parent j : Nat) (cs : List (String × Node)) (next : Nat)
    (lines : List GraphLine) (vs : List Vertex) : Prop where
  places (path : List Nat) (m : Node) :
    (∃ i rest c, path = (j + i) :: rest ∧ cs[i]? = some c ∧ at? rest c.2 = some m) ↔
      ∃ v ∈ vs, v.path = path ∧ v.node = m
  ordered : vs.Pairwise fun v w => List.Lex (· < ·) v.path w.path
  nodes : vs.map (·.node) = cs.flatMap fun c => c.2.within
  numbered : vs.map (·.id) = List.range' next vs.length
  declared : lines.filterMap GraphLine.vertex? = vs.map fun v => (v.id, v.node.outline.label)
  targets : (lines.filterMap GraphLine.target?).Perm (List.range' next vs.length)
  edges {source target : Nat} {label : String} : .edge source target label ∈ lines →
    (source = parent ∧ ∃ w ∈ vs, w.id = target ∧
      ∃ i, w.path = [j + i] ∧ cs[i]? = some (label, w.node)) ∨
    (source < target ∧ IsArc vs source target label)

/-- A vertex of child number `j`, seen from the parent. -/
def Vertex.under (j : Nat) (v : Vertex) : Vertex := { v with path := j :: v.path }

variable {lines more : List GraphLine} {us vs : List Vertex} {c : String × Node}
  {cs : List (String × Node)} {j source target : Nat} {label : String}

theorem IsArc.mono (h : IsArc us source target label) (hsub : us ⊆ vs) :
    IsArc vs source target label := by
  obtain ⟨v, hv, w, hw, harc⟩ := h
  exact ⟨v, hsub hv, w, hsub hw, harc⟩

theorem IsArc.under (h : IsArc us source target label) (j : Nat) :
    IsArc (us.map (·.under j)) source target label := by
  obtain ⟨v, hv, w, hw, hsource, htarget, i, hpath, hchild⟩ := h
  refine ⟨_, List.mem_map_of_mem hv, _, List.mem_map_of_mem hw, hsource, htarget, i, ?_, hchild⟩
  rw [Vertex.under, Vertex.under, hpath, List.cons_append]

/-- A vertex is met before all below it and after it. -/
theorem perm_range'_cons {as bs : List Nat} {k l : Nat} (ha : as.Perm (List.range' (next + 1) k))
    (hb : bs.Perm (List.range' (next + (k + 1)) l)) :
    (as ++ next :: bs).Perm (List.range' next (k + 1 + l)) := by
  rw [← List.range'_append_1, List.range'_succ, List.cons_append]
  exact List.perm_middle.trans ((ha.append hb).cons next)

theorem DrawingAll.nil : DrawingAll parent j [] next [] [] where
  places := by simp
  ordered := .nil
  nodes := rfl
  numbered := rfl
  declared := rfl
  targets := .nil
  edges := by simp

theorem DrawingAll.exists_path (h : DrawingAll parent j cs next lines vs) {v : Vertex}
    (hv : v ∈ vs) : ∃ i rest, v.path = (j + i) :: rest := by
  obtain ⟨i, rest, c, hpath, -⟩ := (h.places v.path v.node).2 ⟨v, hv, rfl, rfl⟩
  exact ⟨i, rest, hpath⟩

/-- One more child before those that have been drawn. -/
theorem DrawingAll.cons (h : Drawing c.2 next lines us)
    (h' : DrawingAll parent (j + 1) cs (next + us.length) more vs) :
    DrawingAll parent j (c :: cs) next (lines ++ .edge parent next c.1 :: more)
      (us.map (·.under j) ++ vs) where
  places path m := by
    constructor
    · rintro ⟨i, rest, c', rfl, hc, hm⟩
      cases i with
      | zero =>
        obtain rfl := Option.some.inj hc
        obtain ⟨u, hu, hpath, hnode⟩ := (h.places rest m).1 hm
        refine ⟨u.under j, List.mem_append_left _ (List.mem_map_of_mem hu), ?_, hnode⟩
        rw [Vertex.under, hpath, Nat.add_zero]
      | succ i =>
        obtain ⟨v, hv, hpath, hnode⟩ := (h'.places _ m).1 ⟨i, rest, c', rfl, hc, hm⟩
        refine ⟨v, List.mem_append_right _ hv, ?_, hnode⟩
        rw [hpath, Nat.add_right_comm, Nat.add_assoc]
    · rintro ⟨v, hv, rfl, rfl⟩
      obtain hv | hv := List.mem_append.1 hv
      · obtain ⟨u, hu, rfl⟩ := List.mem_map.1 hv
        exact ⟨0, u.path, c, rfl, rfl, (h.places _ _).2 ⟨u, hu, rfl, rfl⟩⟩
      · obtain ⟨i, rest, c', hpath, hc, hm⟩ := (h'.places _ _).2 ⟨v, hv, rfl, rfl⟩
        refine ⟨i + 1, rest, c', ?_, hc, hm⟩
        rw [hpath, Nat.add_right_comm, Nat.add_assoc]
  ordered := by
    -- all below child `j` comes before the children of greater number
    refine List.pairwise_append.2 ⟨?_, h'.ordered, fun u hu v hv => ?_⟩
    · exact List.pairwise_map.2 (h.ordered.imp fun huv => .cons huv)
    · obtain ⟨u, -, rfl⟩ := List.mem_map.1 hu
      obtain ⟨i, rest, hpath⟩ := h'.exists_path hv
      rw [hpath]
      exact .rel (by omega)
  nodes := by
    rw [List.map_append, List.map_map, h'.nodes, List.flatMap_cons, ← h.nodes]
    rfl
  numbered := by
    rw [List.map_append, List.map_map, h'.numbered, List.length_append, List.length_map,
      ← List.range'_append_1, ← h.numbered]
    rfl
  declared := by
    simp [List.filterMap_cons, GraphLine.vertex?, h.declared, h'.declared, Vertex.under]
  targets := by
    obtain ⟨us', hus⟩ := List.head?_eq_some_iff.1 h.root
    have hbelow := h.targets
    have hothers := h'.targets
    rw [hus, List.length_cons, Nat.add_sub_cancel] at hbelow
    rw [hus, List.length_cons] at hothers
    rw [List.filterMap_append, List.length_append, List.length_map, hus, List.length_cons]
    exact perm_range'_cons hbelow hothers
  edges := by
    intro source target label hmem
    obtain hmem | hmem := List.mem_append.1 hmem
    · obtain ⟨hlt, harc⟩ := h.edges hmem
      exact .inr ⟨hlt, (harc.under j).mono (List.subset_append_left _ _)⟩
    · obtain hedge | hmem := List.mem_cons.1 hmem
      · obtain ⟨rfl, rfl, rfl⟩ := GraphLine.edge.inj hedge
        have hroot := List.mem_map_of_mem (f := (·.under j)) (List.mem_of_mem_head? h.root)
        exact .inl ⟨rfl, _, List.mem_append_left _ hroot, rfl, 0, rfl, rfl⟩
      · obtain ⟨hparent, w, hw, htarget, i, hpath, hchild⟩ | ⟨hlt, harc⟩ := h'.edges hmem
        · refine .inl ⟨hparent, w, List.mem_append_right _ hw, htarget, i + 1, ?_, hchild⟩
          rw [hpath, Nat.add_right_comm, Nat.add_assoc]
        · exact .inr ⟨hlt, harc.mono (List.subset_append_right _ _)⟩

/-- A vertex over its children. -/
theorem Drawing.node (hn : n.isKnown) (h : DrawingAll id 0 n.children (id + 1) lines vs) :
    Drawing n id (.vertex id n.outline.label :: lines) (⟨id, [], n⟩ :: vs) where
  root := rfl
  places path m := by
    simp only [List.mem_cons, or_and_right, exists_or, exists_eq_left, ← h.places path m]
    cases path with
    | nil => simp [at?]
    | cons j path => simp [at?, Option.bind_eq_some_iff, and_assoc]
  ordered := by
    refine List.pairwise_cons.2 ⟨fun v hv => ?_, h.ordered⟩
    obtain ⟨i, rest, hpath⟩ := h.exists_path hv
    rw [hpath]
    exact .nil
  nodes := by rw [List.map_cons, h.nodes, within_eq hn]
  numbered := by rw [List.map_cons, h.numbered, List.length_cons, List.range'_succ]
  declared := by
    rw [List.map_cons, ← h.declared]
    rfl
  targets := h.targets
  edges := by
    intro source target label hmem
    have hmem : .edge source target label ∈ lines := by simpa using hmem
    -- the edges to the children are from the root itself, which has the least number
    obtain ⟨rfl, w, hw, htarget, i, hpath, hchild⟩ | ⟨hlt, harc⟩ := h.edges hmem
    · have hrange : w.id ∈ List.range' (source + 1) vs.length :=
        h.numbered ▸ List.mem_map_of_mem hw
      rw [htarget, List.mem_range'_1] at hrange
      refine ⟨by omega, _, List.mem_cons_self, w, List.mem_cons_of_mem _ hw, rfl, htarget, i, ?_,
        hchild⟩
      rw [hpath, Nat.zero_add, List.nil_append]
    · exact ⟨hlt, harc.mono (List.subset_cons_self _ _)⟩

theorem exists_drawingAll (parent j next : Nat)
    (h : ∀ c ∈ cs, ∀ id, ∃ us, Drawing c.2 id (c.2.outline.draw id).1 us ∧
      (c.2.outline.draw id).2 = id + us.length) :
    ∃ vs, DrawingAll parent j cs next (drawAll parent cs next).1 vs ∧
      (drawAll parent cs next).2 = next + vs.length := by
  induction cs generalizing j next with
  | nil => exact ⟨[], .nil, rfl⟩
  | cons c cs ih =>
    obtain ⟨hc, hcs⟩ := List.forall_mem_cons.1 h
    obtain ⟨us, hus, hnext⟩ := hc next
    obtain ⟨vs, hvs, hlast⟩ := ih (j + 1) (next + us.length) hcs
    simp only [drawAll, hnext]
    refine ⟨us.map (·.under j) ++ vs, .cons hus hvs, ?_⟩
    rw [hlast, List.length_append, List.length_map, Nat.add_assoc]

/-- A tree is drawn as it is. -/
theorem IsTree.exists_drawing (h : IsTree n) (id : Nat) :
    ∃ vs, Drawing n id (n.outline.draw id).1 vs ∧ (n.outline.draw id).2 = id + vs.length := by
  induction h generalizing id with
  | @mk n hn hchildren ih =>
    obtain ⟨vs, hvs, hnext⟩ := exists_drawingAll id 0 (id + 1) ih
    rw [draw_eq ⟨hn, hchildren⟩]
    refine ⟨_, .node hn hvs, ?_⟩
    rw [hnext, List.length_cons]
    omega

end Node

/-! ### The text of a graph -/

namespace GraphLine

/-- The label that a quotation mark ends, and nothing but the end of the statement after it. In a
label a backslash stands before a mark, before a backslash, or with `n` for the end of a line. -/
def readLabel : List Char → Option (List Char)
  | ['"', ']', ';'] => some []
  | '\\' :: 'n' :: cs => (readLabel cs).map ('\n' :: ·)
  | '\\' :: '"' :: cs => (readLabel cs).map ('"' :: ·)
  | '\\' :: '\\' :: cs => (readLabel cs).map ('\\' :: ·)
  | '"' :: _ | '\\' :: _ | '\n' :: _ | [] => none
  | c :: cs => (readLabel cs).map (c :: ·)

theorem readLabel_escape (label : String) :
    readLabel ((escape label).toList ++ ['"', ']', ';']) = some label.toList := by
  rw [escape, String.toList_ofList]
  induction label.toList with
  | nil => rfl
  | cons c cs ih =>
    rw [List.flatMap_cons, List.append_assoc]
    split
    case h_4 hquote hslash hline =>
      -- a character that is written as it is opens no escape and ends no label
      rw [List.singleton_append, readLabel.eq_def]
      split <;> simp_all
    all_goals simp [readLabel, ih]

/-- The number of a vertex, and what follows it. -/
def readId? : List Char → Option (Nat × List Char)
  | 'n' :: cs => some (Nat.ofDigitChars 10 (cs.takeWhile Char.isDigit) 0, cs.dropWhile Char.isDigit)
  | _ => none

theorem readId?_digits (id : Nat) {rest : List Char} (h : ∀ c ∈ rest.head?, c.isDigit = false) :
    readId? ('n' :: (Nat.toDigits 10 id ++ rest)) = some (id, rest) := by
  have htake : (Nat.toDigits 10 id ++ rest).takeWhile Char.isDigit = Nat.toDigits 10 id :=
    JavaScript.takeWhile_of_apart (isDigits_toDigits id).2 h
  have hdrop : (Nat.toDigits 10 id ++ rest).dropWhile Char.isDigit = rest := by
    have hboth : (Nat.toDigits 10 id ++ rest).takeWhile Char.isDigit ++
        (Nat.toDigits 10 id ++ rest).dropWhile Char.isDigit = Nat.toDigits 10 id ++ rest :=
      List.takeWhile_append_dropWhile
    rw [htake] at hboth
    exact List.append_cancel_left hboth
  rw [readId?, htake, hdrop, Nat.ofDigitChars_ten_toDigits]

/-- What follows `lead`, if a text starts with it. -/
def after? (lead cs : List Char) : Option (List Char) :=
  if lead <+: cs then some (cs.drop lead.length) else none

theorem after?_append (lead rest : List Char) : after? lead (lead ++ rest) = some rest := by
  rw [after?, if_pos (List.prefix_append lead rest), List.drop_left]

/-- What stands between a statement and its label. -/
def opening : List Char := [' ', '[', 'l', 'a', 'b', 'e', 'l', '=', '"']

def arrow : List Char := [' ', '-', '>', ' ']

/-- A statement from its text. -/
def read? (cs : List Char) : Option GraphLine := do
  let (source, cs) ← readId? cs
  match after? opening cs with
  | some cs => (readLabel cs).map fun label => vertex source (String.ofList label)
  | none =>
    let cs ← after? arrow cs
    let (target, cs) ← readId? cs
    let cs ← after? opening cs
    (readLabel cs).map fun label => edge source target (String.ofList label)

theorem readId?_opening (id : Nat) (cs : List Char) :
    readId? ('n' :: (Nat.toDigits 10 id ++ (opening ++ cs))) = some (id, opening ++ cs) :=
  readId?_digits id (by simp [opening])

theorem readId?_arrow (id : Nat) (cs : List Char) :
    readId? ('n' :: (Nat.toDigits 10 id ++ (arrow ++ cs))) = some (id, arrow ++ cs) :=
  readId?_digits id (by simp [arrow])

theorem after?_arrow (cs : List Char) : after? opening (arrow ++ cs) = none := by
  simp [after?, opening, arrow]

/-- The text of a statement says what it states. -/
theorem read?_render (l : GraphLine) : read? l.render.toList = some l := by
  cases l with
  | vertex id label =>
    have htext : (vertex id label).render.toList = 'n' :: (Nat.toDigits 10 id ++
        (opening ++ ((escape label).toList ++ ['"', ']', ';']))) := by
      simp [render, opening, toString]
    rw [htext, read?]
    simp only [readId?_opening, Option.bind_eq_bind, Option.bind_some, after?_append,
      readLabel_escape, Option.map_some, String.ofList_toList]
  | edge source target label =>
    have htext : (edge source target label).render.toList = 'n' :: (Nat.toDigits 10 source ++
        (arrow ++ 'n' :: (Nat.toDigits 10 target ++
          (opening ++ ((escape label).toList ++ ['"', ']', ';']))))) := by
      simp [render, opening, arrow, toString]
    rw [htext, read?]
    simp only [readId?_arrow, readId?_opening, Option.bind_eq_bind, Option.bind_some, after?_arrow,
      after?_append, readLabel_escape, Option.map_some, String.ofList_toList]

theorem newline_notMem_escape (label : String) : '\n' ∉ (escape label).toList := by
  rw [escape, String.toList_ofList]
  simp only [List.mem_flatMap, not_exists, not_and]
  intro c _
  split
  case h_4 hline => simpa [eq_comm] using hline
  all_goals decide

theorem newline_notMem_render (l : GraphLine) : '\n' ∉ l.render.toList := by
  have hdigits (n : Nat) : '\n' ∉ Nat.toDigits 10 n := notMem_toDigits rfl n
  cases l <;> simp [render, toString, hdigits, newline_notMem_escape]

end GraphLine

namespace Node

/-- The lines of a graph are its header, its vertices and edges, and the brace that closes it. -/
theorem splitOn_graph (n : Node) : n.graph.toList.splitOn '\n' =
    "digraph AST \x7b".toList :: "node [shape=box, fontsize=10];".toList ::
      ((n.outline.draw 0).1.map (·.render.toList) ++ ["\x7d".toList]) := by
  rw [graph, splitOn_intercalate]
  · simp only [List.map_append, List.map_cons, List.map_nil, List.map_map, List.cons_append,
      List.nil_append]
    rfl
  · simp only [List.forall_mem_append, List.forall_mem_cons, List.forall_mem_map]
    have hlines := fun l (_ : l ∈ (n.outline.draw 0).1) => l.newline_notMem_render
    exact ⟨⟨⟨by decide, by decide, by simp⟩, hlines⟩, by decide, by simp⟩
  · simp

/-- The graph of a program is the program as a tree: its text has a line for each vertex and each
edge, besides the lines around them, and what these say is a drawing of the program. -/
theorem graph_draws_program {ss : List Node} (h : ∀ s ∈ ss, IsStmt s) :
    ∃ texts lines vs,
      (program ss).graph.toList.splitOn '\n' =
        "digraph AST \x7b".toList :: "node [shape=box, fontsize=10];".toList ::
          (texts ++ ["\x7d".toList]) ∧
      texts.map GraphLine.read? = lines.map some ∧ Drawing (program ss) 0 lines vs := by
  obtain ⟨vs, hvs, -⟩ := (isTree_program h).exists_drawing 0
  refine ⟨_, _, vs, splitOn_graph (program ss), ?_, hvs⟩
  rw [List.map_map]
  exact List.map_congr_left fun l _ => l.read?_render

theorem graph_draws_program_quotes :
    let x := symbol ⟨"x", 1, .var false, .declared 0⟩
    let s := ifElse x [print (string (Text.ofString "a \"b\"\n\\"))] (ifOnly x [print x])
    (∀ n ∈ [s], IsStmt n) ∧
      ∃ texts lines vs,
        (program [s]).graph.toList.splitOn '\n' =
          "digraph AST \x7b".toList :: "node [shape=box, fontsize=10];".toList ::
            (texts ++ ["\x7d".toList]) ∧
        texts.map GraphLine.read? = lines.map some ∧ Drawing (program [s]) 0 lines vs := by
  intro x s
  have hs : ∀ n ∈ [s], IsStmt n := by
    refine List.forall_mem_singleton.2 (.ifChain (.symbol _) ?_ rfl (.ifOnly (.symbol _) ?_))
    · exact List.forall_mem_singleton.2 (.print (.string _))
    · exact List.forall_mem_singleton.2 (.print (.symbol _))
  exact ⟨hs, graph_draws_program hs⟩

end Node

end Terse
