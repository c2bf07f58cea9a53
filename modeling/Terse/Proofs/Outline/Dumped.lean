import Terse.Dump
import Terse.Proofs.Outline.Heading

/-! A dump is read back from its lines: no two programs that are shown differently have the same. -/
namespace Terse

/-! ### The lines of a dump -/

namespace Outline

/-- Every outline starts with a line at its own depth. -/
theorem dump_eq_cons (o : Outline) (depth : Nat) (field : String) :
    ∃ text ls, o.dump depth field = ⟨depth, text⟩ :: ls := by
  cases o with
  | entry | foreign => exact ⟨_, _, rfl⟩
  | list items =>
    cases items with
    | nil => exact ⟨_, _, rfl⟩
    | cons o os =>
      rw [dump]
      · split <;> exact ⟨_, _, rfl⟩
      · simp

end Outline

namespace Node

open Outline (fieldMark)

variable {m n v w : Node} {d : Nat} {field : String} {rest rest' : List Line}

theorem dumpParts_eq (d : Nat) (fs : List (String × Node)) :
    Outline.dumpParts d (fs.map fun f => ⟨f.1, f.2.outline⟩) =
      fs.flatMap fun f => f.2.outline.dump d f.1 := by
  induction fs with
  | nil => rfl
  | cons f fs ih => rw [List.map_cons, Outline.dumpParts, ih, List.flatMap_cons]

theorem dumpItems_eq (d : Nat) (ns : List Node) :
    Outline.dumpItems d (ns.map outline) = ns.flatMap fun n => n.outline.dump d "" := by
  induction ns with
  | nil => rfl
  | cons n ns ih => rw [List.map_cons, Outline.dumpItems, ih, List.flatMap_cons]

theorem dump_node (h : n.isKnown) (d : Nat) (field : String) : n.outline.dump d field =
    ⟨d, fieldMark field ++ n.outline.heading⟩ ::
      n.fields.flatMap fun f => f.2.outline.dump (d + 1) f.1 := by
  rw [outline_eq h, Outline.dump, dumpParts_eq, ← outline_eq h]

/-- A list is dumped under the name of its part. -/
theorem dump_list (hf : field ≠ "") (ns : List Node) (d : Nat) : (list ns).outline.dump d field =
    ⟨d, field ++ (if ns = [] then ": []" else ":")⟩ ::
      ns.flatMap fun n => n.outline.dump (d + 1) "" := by
  cases ns with
  | nil =>
    have hmark : fieldMark field ++ "[]" = field ++ ": []" := by
      simp [fieldMark, hf, ← String.toList_inj]
    rw [outline_list, List.map_nil, Outline.dump, hmark]
    rfl
  | cons n ns =>
    rw [outline_list, ← dumpItems_eq, List.map_cons, Outline.dump]
    · rw [if_neg hf, if_neg (by simp)]
    · simp

/-! ### Text on one line -/

/-- A text that stays on its line and does not start with a blank. -/
def IsClean (text : String) : Prop := '\n' ∉ text.toList ∧ text.toList.head? ≠ some ' '

instance (text : String) : Decidable (IsClean text) := inferInstanceAs (Decidable (_ ∧ _))

theorem IsClean.append {a b : String} (ha : IsClean a) (hb : IsClean b) : IsClean (a ++ b) := by
  refine ⟨by simp [ha.1, hb.1], ?_⟩
  rw [String.toList_append, List.head?_append]
  cases h : a.toList.head? with
  | none => exact hb.2
  | some c =>
    rw [Option.some_or, ← h]
    exact ha.2

theorem isClean_fieldName {f : String × Node} (hf : f ∈ n.fields) : IsClean f.1 ∧ f.1 ≠ "" := by
  have hnames : ∀ name ∈ n.fields.map (·.1), IsClean name ∧ name ≠ "" := by
    cases n <;> simp only [fields, List.map_cons, List.map_nil] <;> decide
  exact hnames f.1 (List.mem_map_of_mem hf)

theorem heading_eq_cons (h : n.isKnown) :
    ∃ c cs, n.outline.heading.toList = c :: cs ∧ c.isAlpha := by
  have hne : n.className.toList ≠ [] := by
    cases n with
    | list | foreign => contradiction
    | symbol s =>
      rw [className, Symbol.className]
      split <;> decide
    | _ =>
      simp only [className]
      decide
  obtain ⟨c, cs, hcs⟩ := List.exists_cons_of_ne_nil hne
  refine ⟨c, cs ++ n.details.toList, ?_, isAlpha_className h c (by simp [hcs])⟩
  rw [heading_eq h, String.toList_append, hcs, List.cons_append]

theorem isClean_heading (h : n.isKnown) (hn : n.IsPlain) : IsClean n.outline.heading := by
  obtain ⟨c, cs, hcs, hc⟩ := heading_eq_cons h
  constructor
  · have hclass : '\n' ∉ n.className.toList := fun hline =>
      absurd (isAlpha_className h _ hline) (by decide)
    simp [heading_eq h, hclass, newline_notMem_details hn]
  · rw [hcs]
    rintro ⟨⟩
    contradiction

/-! ### Reading a dump back -/

/-- A tree in which every node shows all it is. -/
structure Legible (n : Node) : Prop where
  isTree : IsTree n
  plain : ∀ m ∈ n.within, m.IsPlain

theorem Legible.isPlain (h : Legible n) : n.IsPlain :=
  h.plain n (by simp [within_eq h.isTree.isKnown])

theorem Legible.child (h : Legible n) {c : String × Node} (hc : c ∈ n.children) : Legible c.2 := by
  obtain ⟨⟨hn, hchildren⟩, hplain⟩ := h
  refine ⟨hchildren c hc, fun m hm => hplain m ?_⟩
  rw [within_eq hn]
  exact List.mem_cons_of_mem _ (List.mem_flatMap.2 ⟨c, hc, hm⟩)

theorem mem_children {f : String × Node} (hf : f ∈ n.fields) (hm : m ∈ f.2.items) :
    (f.1, m) ∈ n.children :=
  List.mem_flatMap.2 ⟨f, hf, List.mem_map_of_mem hm⟩

/-- What may follow the lines of something at depth `d`: nothing that is as deep. -/
def Ends (d : Nat) (rest : List Line) : Prop := ∀ l ∈ rest.head?, l.depth < d

theorem Ends.mono {e : Nat} (h : Ends d rest) (he : d ≤ e) : Ends e rest := fun l hl =>
  Nat.lt_of_lt_of_le (h l hl) he

theorem Ends.dump_append {α : Type} (h : Ends d rest) (o : α → Outline) (field : α → String)
    (xs : List α) :
    Ends (d + 1) ((xs.flatMap fun x => (o x).dump d (field x)) ++ rest) := by
  cases xs with
  | nil => exact h.mono (Nat.le_succ d)
  | cons x xs =>
    obtain ⟨text, ls, hx⟩ := (o x).dump_eq_cons d (field x)
    simp [Ends, hx]

theorem not_ends_dump (o : Outline) (field : String) (rest : List Line) :
    ¬ Ends d (o.dump d field ++ rest) := by
  obtain ⟨text, ls, ho⟩ := o.dump_eq_cons d field
  simp [Ends, ho]

/-- The lines of `m` are told from what follows them, and from those of any node shown otherwise. -/
def Decodes (m : Node) : Prop :=
  ∀ {n : Node} {d : Nat} {field : String} {rest rest' : List Line}, Legible n →
    Ends (d + 1) rest → Ends (d + 1) rest' →
    m.outline.dump d field ++ rest = n.outline.dump d field ++ rest' →
    m.shown = n.shown ∧ rest = rest'

theorem shownAll_eq (ns : List Node) : shownAll ns = ns.map shown := by
  induction ns with
  | nil => rfl
  | cons n ns ih => rw [shownAll, ih, List.map_cons]

/-- Lists that are dumped alike have items that are shown alike. -/
theorem items_inj {ms ns : List Node} (hm : ∀ m ∈ ms, Decodes m) (hn : ∀ n ∈ ns, Legible n)
    (hrest : Ends d rest) (hrest' : Ends d rest')
    (h : (ms.flatMap fun m => m.outline.dump d "") ++ rest =
      (ns.flatMap fun n => n.outline.dump d "") ++ rest') :
    shownAll ms = shownAll ns ∧ rest = rest' := by
  induction ms generalizing ns with
  | nil =>
    cases ns with
    | nil => exact ⟨rfl, h⟩
    | cons n ns =>
      -- one more item would have a line of its depth where only less deep ones can follow
      rw [List.flatMap_nil, List.nil_append, List.flatMap_cons, List.append_assoc] at h
      rw [h] at hrest
      exact absurd hrest (not_ends_dump _ _ _)
  | cons m ms ih =>
    rw [List.flatMap_cons, List.append_assoc] at h
    cases ns with
    | nil =>
      rw [List.flatMap_nil, List.nil_append] at h
      rw [← h] at hrest'
      exact absurd hrest' (not_ends_dump _ _ _)
    | cons n ns =>
      rw [List.flatMap_cons, List.append_assoc] at h
      obtain ⟨hm, hms⟩ := List.forall_mem_cons.1 hm
      obtain ⟨hn, hns⟩ := List.forall_mem_cons.1 hn
      obtain ⟨hshown, htail⟩ := hm hn (hrest.dump_append _ _ _) (hrest'.dump_append _ _ _) h
      obtain ⟨hall, hend⟩ := ih hms hns htail
      exact ⟨by rw [shownAll, shownAll, hshown, hall], hend⟩

/-- A list is not taken for a node. -/
theorem opening_ne (h : n.isKnown) (hf : field ≠ "") (ns : List Node) :
    field ++ (if ns = [] then ": []" else ":") ≠ fieldMark field ++ n.outline.heading := by
  obtain ⟨c, cs, hheading, hc⟩ := heading_eq_cons h
  rw [fieldMark, if_neg hf, String.append_assoc, Ne, String.append_right_inj, ← String.toList_inj,
    String.toList_append, hheading]
  split
  · rintro ⟨⟩
    contradiction
  · rintro ⟨⟩

/-- Parts that are dumped alike are shown alike. -/
theorem part_inj (hf : field ≠ "") (hv : ∀ m ∈ v.items, m.isKnown ∧ Decodes m)
    (hw : ∀ n ∈ w.items, Legible n) (hrest : Ends (d + 1) rest) (hrest' : Ends (d + 1) rest')
    (h : v.outline.dump d field ++ rest = w.outline.dump d field ++ rest') :
    v.shown = w.shown ∧ rest = rest' := by
  obtain ⟨ms, rfl⟩ | hknown := list_or_isKnown fun m hm => (hv m hm).1
  · obtain ⟨ns, rfl⟩ | hknown' := list_or_isKnown fun n hn => (hw n hn).isTree.isKnown
    · rw [dump_list hf, dump_list hf, List.cons_append, List.cons_append, List.cons.injEq] at h
      have hms : ∀ m ∈ ms, Decodes m := fun m hm => (hv m hm).2
      have hns : ∀ n ∈ ns, Legible n := hw
      obtain ⟨hshown, hend⟩ := items_inj hms hns hrest hrest' h.2
      exact ⟨by rw [shown, shown, hshown], hend⟩
    · rw [dump_list hf, dump_node hknown', List.cons_append, List.cons_append, List.cons.injEq,
        Line.mk.injEq] at h
      exact absurd h.1.2 (opening_ne hknown' hf ms)
  · obtain ⟨ns, rfl⟩ | hknown' := list_or_isKnown fun n hn => (hw n hn).isTree.isKnown
    · rw [dump_list hf, dump_node hknown, List.cons_append, List.cons_append, List.cons.injEq,
        Line.mk.injEq] at h
      exact absurd h.1.2.symm (opening_ne hknown hf ns)
    · rw [items_of_isKnown hknown] at hv
      rw [items_of_isKnown hknown'] at hw
      exact (hv v (by simp)).2 (hw w (by simp)) hrest hrest' h

/-- Nodes with the same part names that are dumped alike have parts that are shown alike. -/
theorem fields_inj {fs gs : List (String × Node)} (hnames : fs.map (·.1) = gs.map (·.1))
    (hne : ∀ f ∈ fs, f.1 ≠ "") (hfs : ∀ f ∈ fs, ∀ m ∈ f.2.items, m.isKnown ∧ Decodes m)
    (hgs : ∀ g ∈ gs, ∀ n ∈ g.2.items, Legible n) (hrest : Ends d rest) (hrest' : Ends d rest')
    (h : (fs.flatMap fun f => f.2.outline.dump d f.1) ++ rest =
      (gs.flatMap fun g => g.2.outline.dump d g.1) ++ rest') :
    fs.map (·.2.shown) = gs.map (·.2.shown) ∧ rest = rest' := by
  induction fs generalizing gs with
  | nil =>
    obtain rfl : gs = [] := by simpa using hnames
    exact ⟨rfl, h⟩
  | cons f fs ih =>
    cases gs with
    | nil => contradiction
    | cons g gs =>
      obtain ⟨field, v⟩ := f
      obtain ⟨field', w⟩ := g
      obtain ⟨rfl, hothers⟩ := List.cons.inj hnames
      obtain ⟨hf, hne⟩ := List.forall_mem_cons.1 hne
      obtain ⟨hpart, hfs⟩ := List.forall_mem_cons.1 hfs
      obtain ⟨hpart', hgs⟩ := List.forall_mem_cons.1 hgs
      rw [List.flatMap_cons, List.flatMap_cons, List.append_assoc, List.append_assoc] at h
      obtain ⟨hshown, htail⟩ := part_inj hf hpart hpart' (hrest.dump_append _ _ _)
        (hrest'.dump_append _ _ _) h
      obtain ⟨hall, hend⟩ := ih hothers hne hfs hgs htail
      exact ⟨by rw [List.map_cons, List.map_cons, hshown, hall], hend⟩

/-- The dump of a legible node tells it from all others, by induction on the tree. -/
theorem Legible.decodes (h : Legible m) : Decodes m := by
  obtain ⟨htree, hplain⟩ := h
  induction htree with
  | @mk m hm hchildren ih =>
    have hlegible : Legible m := ⟨⟨hm, hchildren⟩, hplain⟩
    intro n d field rest rest' hn hrest hrest' h
    have hn' := hn.isTree.isKnown
    rw [dump_node hm, dump_node hn', List.cons_append, List.cons_append, List.cons.injEq,
      Line.mk.injEq, String.append_right_inj] at h
    obtain ⟨⟨-, hheading⟩, hlines⟩ := h
    -- the heading fixes the class, the class the names of the fields, and these where each part
    -- starts
    obtain ⟨hclass, hdetails⟩ := heading_inj hm hn' hheading
    obtain ⟨hfields, hend⟩ := fields_inj (fieldNames_eq hm hn' hclass)
      (fun f hf => (isClean_fieldName hf).2)
      (fun f hf c hc => ⟨(hchildren _ (mem_children hf hc)).isKnown,
        ih _ (mem_children hf hc) (hlegible.child (mem_children hf hc)).plain⟩)
      (fun g hg c hc => hn.child (mem_children hg hc)) hrest hrest' hlines
    exact ⟨shown_inj hm hn' hlegible.isPlain hn.isPlain hclass hdetails hfields, hend⟩

/-! ### From text to lines -/

theorem isClean_fieldMark (hf : IsClean field) : IsClean (fieldMark field) := by
  unfold fieldMark
  split
  · decide
  · exact hf.append (by decide)

/-- All lines of a legible node stay lines. -/
theorem isClean_lines (h : Legible n) (hf : IsClean field) :
    ∀ l ∈ n.outline.dump d field, IsClean l.text := by
  obtain ⟨htree, hplain⟩ := h
  induction htree generalizing d field with
  | @mk n hn hchildren ih =>
    have hlegible : Legible n := ⟨⟨hn, hchildren⟩, hplain⟩
    have hlines {f : String × Node} {m : Node} (hf : f ∈ n.fields) (hm : m ∈ f.2.items)
        {d : Nat} {field : String} (hfield : IsClean field) :
        ∀ l ∈ m.outline.dump d field, IsClean l.text :=
      ih _ (mem_children hf hm) hfield (hlegible.child (mem_children hf hm)).plain
    rw [dump_node hn]
    refine List.forall_mem_cons.2 ⟨?_, List.forall_mem_flatMap.2 fun f hmem => ?_⟩
    · exact (isClean_fieldMark hf).append (isClean_heading hn hlegible.isPlain)
    · obtain ⟨hname, hne⟩ := isClean_fieldName hmem
      have hknown : ∀ m ∈ f.2.items, m.isKnown := fun m hm =>
        (hchildren _ (mem_children hmem hm)).isKnown
      obtain ⟨ns, hns⟩ | hv := list_or_isKnown hknown
      · rw [hns, dump_list hne]
        refine List.forall_mem_cons.2 ⟨hname.append ?_, List.forall_mem_flatMap.2 fun m hm => ?_⟩
        · split <;> decide
        · exact hlines hmem (by simpa [hns, items] using hm) (by decide)
      · exact hlines hmem (by simp [items_of_isKnown hv]) hname

end Node

open Node (IsClean)

/-- The line that a text is, by the blanks that it starts with. -/
def Line.read (cs : List Char) : Line :=
  ⟨(cs.takeWhile (· = ' ')).length / 2, String.ofList (cs.dropWhile (· = ' '))⟩

/-- A line is read back from its text. -/
theorem Line.read_render {l : Line} (h : IsClean l.text) : read l.render.toList = l := by
  have hblanks : ∀ c ∈ List.replicate (2 * l.depth) ' ', decide (c = ' ') := by simp
  have hcut : l.text.toList.takeWhile (· = ' ') = [] ∧
      l.text.toList.dropWhile (· = ' ') = l.text.toList := by
    cases hcs : l.text.toList with
    | nil => exact ⟨rfl, rfl⟩
    | cons c cs =>
      have hc : c ≠ ' ' := by simpa [hcs] using h.2
      simp [hc]
  rw [read, toList_render, List.takeWhile_append_of_pos hblanks, hcut.1, List.append_nil,
    List.dropWhile_append_of_pos hblanks, hcut.2, List.length_replicate, String.ofList_toList,
    Nat.mul_div_cancel_left _ (by decide)]

/-- A text of several lines determines them. -/
theorem renderLines_inj {ls ms : List Line} (hls : ∀ l ∈ ls, IsClean l.text)
    (hms : ∀ m ∈ ms, IsClean m.text) (hl : ls ≠ []) (hm : ms ≠ [])
    (h : renderLines ls = renderLines ms) : ls = ms := by
  have hread {ls : List Line} (hls : ∀ l ∈ ls, IsClean l.text) (hl : ls ≠ []) :
      ((renderLines ls).toList.splitOn '\n').map Line.read = ls := by
    have hunbroken : ∀ s ∈ ls.map Line.render, '\n' ∉ s.toList := by
      refine List.forall_mem_map.2 fun l hmem => ?_
      simp [toList_render, (hls l hmem).1]
    rw [renderLines, splitOn_intercalate hunbroken (by simpa using hl), List.map_map, List.map_map]
    refine (List.map_congr_left fun l hmem => ?_).trans (List.map_id ls)
    exact Line.read_render (hls l hmem)
  rw [← hread hls hl, ← hread hms hm, h]

namespace Node

variable {m n : Node} {d : Nat} {field : String}

/-! ### Symbols that are shown alike -/

theorem fields_shown (h : n.isKnown) : n.shown.fields = n.fields.map fun f => (f.1, f.2.shown) := by
  cases n with
  | list | foreign => contradiction
  | _ => simp [shown, fields]

theorem isKnown_shown (n : Node) : n.shown.isKnown = n.isKnown := by cases n <;> rfl

theorem heading_shown (h : n.isKnown) : n.shown.outline.heading = n.outline.heading := by
  have hclass : n.shown.className = n.className := by
    cases n with
    | symbol s =>
      cases hk : s.kind <;> simp [shown, className, Symbol.className, Symbol.isFunction,
        Symbol.shown, SymbolKind.shown, hk]
    | _ => rfl
  have hdetails : n.shown.details = n.details := by
    cases n with
    | symbol s =>
      cases hk : s.kind <;> simp [shown, details, Symbol.suffix, Symbol.shown, SymbolKind.shown, hk]
    | _ => rfl
  rw [heading_eq h, heading_eq (isKnown_shown n ▸ h), hclass, hdetails]

/-- A dump shows only what is shown of the symbols. -/
theorem dump_shown (h : IsTree n) (d : Nat) (field : String) :
    n.shown.outline.dump d field = n.outline.dump d field := by
  induction h generalizing d field with
  | @mk n hn hchildren ih =>
    rw [dump_node hn, dump_node (isKnown_shown n ▸ hn), heading_shown hn, fields_shown hn,
      List.flatMap_map]
    refine congrArg _ (List.flatMap_congr fun f hmem => ?_)
    have hne := (isClean_fieldName hmem).2
    have hknown : ∀ m ∈ f.2.items, m.isKnown := fun m hm =>
      (hchildren _ (mem_children hmem hm)).isKnown
    obtain ⟨ns, hns⟩ | hv := list_or_isKnown hknown
    · rw [hns, shown, shownAll_eq, dump_list hne, dump_list hne, List.flatMap_map]
      simp only [List.map_eq_nil_iff]
      refine congrArg _ (List.flatMap_congr fun m hm => ?_)
      exact ih _ (mem_children hmem (by simpa [hns, items] using hm)) _ _
    · exact ih _ (mem_children hmem (by simp [items_of_isKnown hv])) _ _

theorem eq_of_dump? {text : String} (h : n.dump? = some text) :
    text = renderLines (n.outline.dump 0 "") := by
  unfold dump? at h
  dsimp only at h
  split at h
  · contradiction
  · exact (Option.some.inj h).symm

/-- Trees have the same lines if and only if they are shown alike. -/
theorem dump_inj_iff (hm : Legible m) (hn : Legible n) :
    renderLines (m.outline.dump 0 "") = renderLines (n.outline.dump 0 "") ↔ m.shown = n.shown := by
  have hne (o : Outline) : o.dump 0 "" ≠ [] := by
    obtain ⟨text, ls, ho⟩ := o.dump_eq_cons 0 ""
    simp [ho]
  constructor
  · intro h
    have hlines := renderLines_inj (isClean_lines hm (by decide)) (isClean_lines hn (by decide))
      (hne _) (hne _) h
    have hends : Ends 1 [] := by simp [Ends]
    exact (hm.decodes hn hends hends (by rw [hlines])).1
  · intro h
    rw [← dump_shown hm.isTree, ← dump_shown hn.isTree, h]

/-- A dump tells programs apart: two programs have the same if and only if they are equal in all
that is shown of their nodes and symbols. -/
theorem dump?_eq_iff_shown {ss ts : List Node} (hss : ∀ s ∈ ss, IsStmt s) (hts : ∀ t ∈ ts, IsStmt t)
    (hplain : ∀ n ∈ (program ss).within, n.IsPlain)
    (hplain' : ∀ n ∈ (program ts).within, n.IsPlain) :
    ∃ text text', (program ss).dump? = some text ∧ (program ts).dump? = some text' ∧
      (text = text' ↔ (program ss).shown = (program ts).shown) := by
  obtain ⟨text, htext⟩ := dump?_program hss
  obtain ⟨text', htext'⟩ := dump?_program hts
  refine ⟨text, text', htext, htext', ?_⟩
  rw [eq_of_dump? htext, eq_of_dump? htext']
  exact dump_inj_iff ⟨isTree_program hss, hplain⟩ ⟨isTree_program hts, hplain'⟩

theorem dump?_eq_iff_shown_choices :
    let x := symbol ⟨"x", 1, .var false, .declared 0⟩
    let s := ifElse x [print (string (Text.ofString "it's\n[]"))] (list [])
    let t := ifElse x [] (ifOnly x [print (number (.int (-1)))])
    (∀ n ∈ [s], IsStmt n) ∧ (∀ n ∈ [t], IsStmt n) ∧ (∀ n ∈ (program [s]).within, n.IsPlain) ∧
      (∀ n ∈ (program [t]).within, n.IsPlain) ∧
      ∃ text text', (program [s]).dump? = some text ∧ (program [t]).dump? = some text' ∧
        (text = text' ↔ (program [s]).shown = (program [t]).shown) := by
  intro x s t
  have hs : ∀ n ∈ [s], IsStmt n :=
    List.forall_mem_singleton.2 (.ifElse (.symbol _) (by simpa using .print (.string _)) (by simp))
  have ht : ∀ n ∈ [t], IsStmt n := by
    refine List.forall_mem_singleton.2 (.ifChain (.symbol _) (by simp) rfl ?_)
    exact .ifOnly (.symbol _) (by simpa using .print (.number _))
  have hname : IsName "x".toList := ⟨'x', [], rfl, rfl, by simp⟩
  have hplain : ∀ n ∈ (program [s]).within, n.IsPlain := by
    simpa [s, x, within, withinAll, IsPlain] using hname
  have hplain' : ∀ n ∈ (program [t]).within, n.IsPlain := by
    simpa [t, x, within, withinAll, IsPlain] using hname
  exact ⟨hs, ht, hplain, hplain', dump?_eq_iff_shown hs ht hplain hplain'⟩

end Node

end Terse
