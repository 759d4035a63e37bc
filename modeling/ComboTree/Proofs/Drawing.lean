import ComboTree.Proofs.Pieces
import ComboTree.Proofs.Reachable
import ComboTree.Proofs.SameShape

/-!
# Drawings can be read back

A drawing has one line per node.  Below the root's line, a line starts with a guide for each node
between the root and its own, a bar or blanks of the same width, and then a connector, a tee or a
corner.  No guide looks like a connector, so the first connector of a line ends what was drawn, and
whatever follows is the label, even if it looks like more guides.  The number of guides is the
depth; and a tree is known from its outline, the depths and labels in pre-order, since what is below
a node is what follows it until the next node that is not deeper.

A label with a line end in it would show as several lines, so such labels are left out here.

## Key results

- `lines_join`: a text of ended lines is cut into these lines
- `Rose.eq_of_outline_append_eq`: an outline is read in one way
- `readLine_bar`, `readLine_gap`, `readLine_tee`, `readLine_corner`: what a line shows
- `Rose.map_readLine_drawing`: a drawing shows the outline
- `Rose.drawing_injective`: drawings of different trees differ
- `render_eq_iff`: what is printed for a tree, and which trees it is printed for
-/

namespace ComboTree

/-! ## Lines -/

namespace Text

/-- The lines of a text.  A line end at the end of the text starts no further line. -/
def lines (s : String) : List String :=
  if (pieces '\n' s).getLast? = some "" then (pieces '\n' s).dropLast else pieces '\n' s

/-- Texts with the separator after each of them. -/
theorem joined_concat_empty (sep : Char) (ps : List String) :
    joined sep (ps ++ [""]) = String.join (ps.map (· ++ String.singleton sep)) := by
  -- the empty text at the end keeps the last separator a separator
  induction ps with
  | nil => simp [joined]
  | cons p ps ih =>
    rw [List.map_cons, String.join_cons, ← ih, ← List.singleton_append, List.append_assoc,
      joined_append sep (List.cons_ne_nil p []) (by simp)]
    simp [joined]

/-- A text of ended lines is cut into these lines. -/
theorem lines_join {ls : List String} (h : ∀ line ∈ ls, '\n' ∉ line.toList) :
    lines (String.join (ls.map (· ++ "\n"))) = ls := by
  -- the last line end is followed by an empty piece, which is no line
  have hpieces : pieces '\n' (String.join (ls.map (· ++ "\n"))) = ls ++ [""] := by
    rw [show "\n" = String.singleton '\n' from rfl, ← joined_concat_empty]
    apply pieces_joined '\n' (by simp)
    intro line hline
    rcases List.mem_append.1 hline with hline | hline
    · exact h line hline
    · rw [List.mem_singleton.1 hline]
      simp
  rw [lines, hpieces, if_pos List.getLast?_concat, List.dropLast_concat]

end Text

/-! ## Outlines -/

namespace Rose

variable {α : Type} {depth : Nat}

/-- The values in pre-order, each with its depth, which is `depth` at the root. -/
def outline (depth : Nat) : Rose α → List (Nat × α)
  | node a ts => (depth, a) :: ts.flatMap (outline (depth + 1))

/-- `outline` at a node. -/
@[simp] theorem outline_node (depth : Nat) (a : α) (ts : List (Rose α)) :
    (node a ts).outline depth = (depth, a) :: ts.flatMap (outline (depth + 1)) := by
  rw [outline]

/-- An outline lists the values in pre-order. -/
theorem map_snd_outline (t : Rose α) (depth : Nat) :
    (t.outline depth).map Prod.snd = t.preorder := by
  induction t using induction generalizing depth with
  | node a ts ih =>
    rw [outline_node, preorder_node, List.map_cons, List.map_flatMap,
      List.flatMap_congr fun t ht => ih t ht (depth + 1)]

/-- What follows a tree in an outline is not deeper than its root. -/
def Follows (depth : Nat) (rest : List (Nat × α)) : Prop :=
  ∀ entry ∈ rest.head?, entry.1 ≤ depth

/-- A tree in an outline may be followed by one of the same depth. -/
theorem follows_outline_append (t : Rose α) (depth : Nat) (rest : List (Nat × α)) :
    Follows depth (t.outline depth ++ rest) := by
  cases t
  rw [outline_node]
  intro entry hentry
  rw [List.cons_append, List.head?_cons, Option.mem_some_iff] at hentry
  rw [← hentry]

/-- Trees side by side are followed by trees of the same depth, or by what follows all of them. -/
theorem follows_flatMap_outline (ts : List (Rose α)) {rest : List (Nat × α)}
    (hrest : Follows depth rest) :
    Follows (depth + 1) (ts.flatMap (outline (depth + 1)) ++ rest) := by
  cases ts with
  | nil => exact fun entry hentry => Nat.le_succ_of_le (hrest entry hentry)
  | cons t ts =>
    rw [List.flatMap_cons, List.append_assoc]
    exact follows_outline_append t _ _

/-- Where trees end and what follows them begins, the depth is less, so no tree starts there. -/
theorem ne_outline_append {u : Rose α} {rest rest' : List (Nat × α)} (hrest : Follows depth rest) :
    rest ≠ u.outline (depth + 1) ++ rest' := by
  cases u
  rintro rfl
  -- a tree would start with its root, which is deeper than what may follow
  have hle := hrest (depth + 1, _) (by rw [outline_node]; rfl)
  omega

/-- The trees of a forest are read one after the other, if each tree can be read. -/
theorem eq_of_flatMap_outline_append_eq {ts us : List (Rose α)} {rest rest' : List (Nat × α)}
    (ih : ∀ t ∈ ts, ∀ (u : Rose α) (rest rest' : List (Nat × α)), Follows (depth + 1) rest →
      Follows (depth + 1) rest' → t.outline (depth + 1) ++ rest = u.outline (depth + 1) ++ rest' →
      t = u ∧ rest = rest')
    (hrest : Follows depth rest) (hrest' : Follows depth rest')
    (h : ts.flatMap (outline (depth + 1)) ++ rest = us.flatMap (outline (depth + 1)) ++ rest') :
    ts = us ∧ rest = rest' := by
  -- both forests end together, or the one that goes on starts a tree where none can start
  induction ts generalizing us with
  | nil =>
    cases us with
    | nil => exact ⟨rfl, h⟩
    | cons u us =>
      rw [List.flatMap_cons, List.append_assoc] at h
      exact absurd h (ne_outline_append hrest)
  | cons t ts ihs =>
    cases us with
    | nil =>
      rw [List.flatMap_cons, List.append_assoc] at h
      exact absurd h.symm (ne_outline_append hrest')
    | cons u us =>
      rw [List.flatMap_cons, List.flatMap_cons, List.append_assoc, List.append_assoc] at h
      -- the first trees are read alike, which leaves shorter forests before the same rest
      obtain ⟨rfl, hbelow⟩ := ih t List.mem_cons_self u _ _ (follows_flatMap_outline ts hrest)
        (follows_flatMap_outline us hrest') h
      obtain ⟨rfl, hend⟩ := ihs (fun v hv => ih v (List.mem_cons_of_mem t hv)) hbelow
      exact ⟨rfl, hend⟩

/-- A tree is read from an outline in one way, with what follows it. -/
theorem eq_of_outline_append_eq {t u : Rose α} {rest rest' : List (Nat × α)}
    (hrest : Follows depth rest) (hrest' : Follows depth rest')
    (h : t.outline depth ++ rest = u.outline depth ++ rest') : t = u ∧ rest = rest' := by
  induction t using induction generalizing depth u rest rest' with
  | node a ts ih =>
    obtain ⟨b, us⟩ := u
    rw [outline_node, outline_node, List.cons_append, List.cons_append, List.cons.injEq] at h
    -- the entries of the roots are equal, and what follows them are forests with a rest
    obtain ⟨hroot, hbelow⟩ := h
    obtain ⟨-, rfl⟩ := Prod.mk.inj hroot
    obtain ⟨rfl, hend⟩ := eq_of_flatMap_outline_append_eq
      (fun t ht u rest rest' hrest hrest' => ih t ht hrest hrest') hrest hrest' hbelow
    exact ⟨rfl, hend⟩

end Rose

/-! ## What a line shows -/

/-- What `readLine` does, character by character. -/
def readGuides : List Char → Nat × List Char
  | '│' :: ' ' :: ' ' :: ' ' :: rest => ((readGuides rest).1 + 1, (readGuides rest).2)
  | ' ' :: ' ' :: ' ' :: ' ' :: rest => ((readGuides rest).1 + 1, (readGuides rest).2)
  | '├' :: '─' :: '─' :: ' ' :: label => (1, label)
  | '└' :: '─' :: '─' :: ' ' :: label => (1, label)
  | label => (0, label)

/-- The depth and the label that a line shows: each guide is one step down, the first connector is
the last step, and what follows is the label. -/
def readLine (line : String) : Nat × String :=
  ((readGuides line.toList).1, String.ofList (readGuides line.toList).2)

/-- A bar is one step down. -/
theorem readLine_bar (rest : String) :
    readLine ("│   " ++ rest) = ((readLine rest).1 + 1, (readLine rest).2) := by
  rw [readLine, String.toList_append]
  rfl

/-- So are blanks of its width. -/
theorem readLine_gap (rest : String) :
    readLine ("    " ++ rest) = ((readLine rest).1 + 1, (readLine rest).2) := by
  rw [readLine, String.toList_append]
  rfl

/-- A tee is the last step, whatever the label looks like. -/
theorem readLine_tee (label : String) : readLine ("├── " ++ label) = (1, label) := by
  rw [readLine, String.toList_append]
  exact congrArg (Prod.mk 1) String.ofList_toList

/-- So is a corner. -/
theorem readLine_corner (label : String) : readLine ("└── " ++ label) = (1, label) := by
  rw [readLine, String.toList_append]
  exact congrArg (Prod.mk 1) String.ofList_toList

/-- The text `indent` is `depth` guides: whatever follows it is read that much deeper. -/
def Indents (depth : Nat) (indent : String) : Prop :=
  ∀ rest, readLine (indent ++ rest) = ((readLine rest).1 + depth, (readLine rest).2)

/-- No guides for the root. -/
theorem indents_empty : Indents 0 "" := by
  intro rest
  rw [String.empty_append]
  rfl

/-- One more guide beside a node with a later sibling. -/
theorem Indents.bar {depth : Nat} {indent : String} (h : Indents depth indent) :
    Indents (depth + 1) (indent ++ "│   ") := by
  intro rest
  rw [String.append_assoc, h, readLine_bar, Nat.add_right_comm, Nat.add_assoc]

/-- One more guide beside a last child. -/
theorem Indents.gap {depth : Nat} {indent : String} (h : Indents depth indent) :
    Indents (depth + 1) (indent ++ "    ") := by
  intro rest
  rw [String.append_assoc, h, readLine_gap, Nat.add_right_comm, Nat.add_assoc]

/-- The text `lead` is what stands before the label of a node at `depth`. -/
def Leads (depth : Nat) (lead : String) : Prop :=
  ∀ label, readLine (lead ++ label) = (depth, label)

/-- Guides and a tee stand before a child one step deeper. -/
theorem Indents.tee {depth : Nat} {indent : String} (h : Indents depth indent) :
    Leads (depth + 1) (indent ++ "├── ") := by
  intro label
  rw [String.append_assoc, h, readLine_tee, Nat.add_comm]

/-- So do guides and a corner. -/
theorem Indents.corner {depth : Nat} {indent : String} (h : Indents depth indent) :
    Leads (depth + 1) (indent ++ "└── ") := by
  intro label
  rw [String.append_assoc, h, readLine_corner, Nat.add_comm]

namespace Rose

/-! ## Drawings -/

/-- The lines below a node's own: all children but the last hang on a tee, and that on a corner. -/
def drawingBelow (indent : String) (ts : List (Rose String)) : List String :=
  ts.dropLast.flatMap (drawing (indent ++ "├── ") (indent ++ "│   ")) ++
    ts.getLast?.toList.flatMap (drawing (indent ++ "└── ") (indent ++ "    "))

/-- A drawing is the line of the root and the lines below it. -/
theorem drawing_eq_cons (lead indent label : String) (ts : List (Rose String)) :
    drawing lead indent (node label ts) = (lead ++ label) :: drawingBelow indent ts :=
  drawing_node lead indent label ts

/-- The lines below a node show the outlines of its children, if the lines of each child do. -/
theorem map_readLine_drawingBelow {depth : Nat} {indent : String} (hindent : Indents depth indent)
    {ts : List (Rose String)}
    (ih : ∀ t ∈ ts, ∀ {lead indent}, Leads (depth + 1) lead → Indents (depth + 1) indent →
      (drawing lead indent t).map readLine = t.outline (depth + 1)) :
    (drawingBelow indent ts).map readLine = ts.flatMap (outline (depth + 1)) := by
  -- a bar continues below a tee, and blanks below a corner
  have htee : ∀ t ∈ ts.dropLast, (drawing (indent ++ "├── ") (indent ++ "│   ") t).map readLine =
      t.outline (depth + 1) :=
    fun t ht => ih t (List.mem_of_mem_dropLast ht) hindent.tee hindent.bar
  have hcorner : ∀ t ∈ ts.getLast?.toList,
      (drawing (indent ++ "└── ") (indent ++ "    ") t).map readLine = t.outline (depth + 1) :=
    fun t ht => ih t (List.mem_of_getLast? (Option.mem_toList.1 ht)) hindent.corner hindent.gap
  rw [drawingBelow, List.map_append, List.map_flatMap, List.map_flatMap, List.flatMap_congr htee,
    List.flatMap_congr hcorner, List.flatMap_dropLast_append]

/-- The lines of a tree below the root show its outline. -/
theorem map_readLine_drawing {t : Rose String} {depth : Nat} {lead indent : String}
    (hlead : Leads depth lead) (hindent : Indents depth indent) :
    (drawing lead indent t).map readLine = t.outline depth := by
  -- what stands before a label and before the lines below it grows on the way down
  induction t using induction generalizing depth lead indent with
  | node label ts ih =>
    rw [drawing_eq_cons, List.map_cons, hlead, outline_node,
      map_readLine_drawingBelow hindent fun t ht => ih t ht]

/-- Below the root's line, which is its label alone, stand the children of the root. -/
theorem map_readLine_drawingBelow_empty (ts : List (Rose String)) :
    (drawingBelow "" ts).map readLine = ts.flatMap (outline 1) :=
  map_readLine_drawingBelow indents_empty fun _ _ => map_readLine_drawing

/-- There is one line for each node. -/
theorem length_drawing (t : Rose String) : (drawing "" "" t).length = t.preorder.length := by
  obtain ⟨label, ts⟩ := t
  -- reading the lines gives the outline, which has an entry for each node
  have hlength := congrArg List.length (map_readLine_drawingBelow_empty ts)
  rw [List.length_map] at hlength
  rw [drawing_eq_cons, List.length_cons, hlength, preorder_node, List.length_cons,
    ← List.length_map Prod.snd, List.map_flatMap,
    List.flatMap_congr fun t _ => map_snd_outline t 1]

/-- Drawings of different trees differ. -/
theorem drawing_injective {t u : Rose String} (h : drawing "" "" t = drawing "" "" u) : t = u := by
  obtain ⟨label, ts⟩ := t
  obtain ⟨label', us⟩ := u
  rw [drawing_eq_cons, drawing_eq_cons, List.cons.injEq, String.empty_append,
    String.empty_append] at h
  -- the first line is the root's label, and the others are read as outlines
  obtain ⟨rfl, hbelow⟩ := h
  have houtlines := congrArg (List.map readLine) hbelow
  rw [map_readLine_drawingBelow_empty, map_readLine_drawingBelow_empty] at houtlines
  have hnone : Follows 0 ([] : List (Nat × String)) := nofun
  obtain ⟨rfl, -⟩ := eq_of_flatMap_outline_append_eq
    (fun t _ u rest rest' hrest hrest' => eq_of_outline_append_eq hrest hrest') hnone hnone
    (congrArg (· ++ []) houtlines)
  rfl

/-- Every line below a node's own is one of the drawing of a child. -/
theorem exists_of_mem_drawingBelow {indent line : String} {ts : List (Rose String)}
    (h : line ∈ drawingBelow indent ts) : ∃ t ∈ ts,
      line ∈ drawing (indent ++ "├── ") (indent ++ "│   ") t ∨
      line ∈ drawing (indent ++ "└── ") (indent ++ "    ") t := by
  rcases List.mem_append.1 h with h | h
  · obtain ⟨t, ht, hline⟩ := List.mem_flatMap.1 h
    exact ⟨t, List.mem_of_mem_dropLast ht, .inl hline⟩
  · obtain ⟨t, ht, hline⟩ := List.mem_flatMap.1 h
    exact ⟨t, List.mem_of_getLast? (Option.mem_toList.1 ht), .inr hline⟩

/-- Nothing that is drawn ends a line, so no line of a drawing goes over several lines unless a label
does. -/
theorem no_line_end_of_mem_drawing {t : Rose String} {lead indent line : String}
    (hlead : '\n' ∉ lead.toList) (hindent : '\n' ∉ indent.toList)
    (hlabels : ∀ label ∈ t.preorder, '\n' ∉ label.toList) (hline : line ∈ drawing lead indent t) :
    '\n' ∉ line.toList := by
  induction t using induction generalizing lead indent with
  | node label ts ih =>
    rw [preorder_node] at hlabels
    rw [drawing_eq_cons, List.mem_cons] at hline
    -- guides and connectors are drawn after the indentation
    have hdrawn : ∀ drawn, '\n' ∉ String.toList drawn → '\n' ∉ (indent ++ drawn).toList := by
      intro drawn hdrawn
      rw [String.toList_append, List.mem_append, not_or]
      exact ⟨hindent, hdrawn⟩
    rcases hline with rfl | hline
    · rw [String.toList_append, List.mem_append, not_or]
      exact ⟨hlead, hlabels label List.mem_cons_self⟩
    · obtain ⟨t, ht, hline⟩ := exists_of_mem_drawingBelow hline
      have hbelow : ∀ label ∈ t.preorder, '\n' ∉ label.toList := fun label hlabel =>
        hlabels label (List.mem_cons_of_mem _ (List.mem_flatMap.2 ⟨t, ht, hlabel⟩))
      rcases hline with hline | hline
      · exact ih t ht (hdrawn _ (by decide)) (hdrawn _ (by decide)) hbelow hline
      · exact ih t ht (hdrawn _ (by decide)) (hdrawn _ (by decide)) hbelow hline

end Rose

/-! ## What is printed -/

namespace Tree

variable {t u : Tree}

/-- The text printed for a tree with nodes is its drawing, each line ended. -/
theorem render_of_pos (h : 0 < t.size) :
    t.render = String.join ((Rose.drawing "" "" (t.labelled 0)).map (· ++ "\n")) := by
  rw [render, shape?_of_pos h]
  rfl

/-- Where no label holds a line end, the lines of the text are those of the drawing. -/
theorem lines_render (h : 0 < t.size)
    (hlabels : ∀ n label, t.label? n = some label → '\n' ∉ label.toList) :
    Text.lines t.render = Rose.drawing "" "" (t.labelled 0) := by
  rw [render_of_pos h]
  apply Text.lines_join
  intro line
  apply Rose.no_line_end_of_mem_drawing (by decide) (by decide)
  intro label hlabel
  rw [labelled, Rose.map_preorder] at hlabel
  -- a label of the drawing is that of a node
  obtain ⟨n, hn, rfl⟩ := List.mem_map.1 hlabel
  exact hlabels n _ (label?_eq_some (lt_size_of_mem_preorder h hn))

/-- The text has one line for each node. -/
theorem Linked.length_lines_render (hl : t.Linked) (h : 0 < t.size)
    (hlabels : ∀ n label, t.label? n = some label → '\n' ∉ label.toList) :
    (Text.lines t.render).length = t.size := by
  rw [lines_render h hlabels, Rose.length_drawing, labelled, Rose.length_preorder_map,
    ← preorder_of_pos h, hl.perm_range_preorder.length_eq, List.length_range]

/-- For two trees that calls lead to, each with a node at least and without a line end in a label:
the text that is printed has one line for each node, and the texts are the same just when the trees
are, but for the handles of their nodes.  Labels may look like what is drawn before them. -/
theorem render_eq_iff (ht : t.Reachable) (hu : u.Reachable) (hne : ¬ t.isEmpty)
    (hne' : ¬ u.isEmpty) (hlabels : ∀ n label, t.label? n = some label → '\n' ∉ label.toList)
    (hlabels' : ∀ n label, u.label? n = some label → '\n' ∉ label.toList) :
    (Text.lines t.render).length = t.size ∧ (Text.lines u.render).length = u.size ∧
    (t.render = u.render ↔ ∃ σ, t.Renumbers u σ) := by
  have hl := ht.linked
  have hl' := hu.linked
  have hpos : 0 < t.size := Nat.pos_of_ne_zero (mt isEmpty_iff.2 hne)
  have hpos' : 0 < u.size := Nat.pos_of_ne_zero (mt isEmpty_iff.2 hne')
  refine ⟨hl.length_lines_render hpos hlabels, hl'.length_lines_render hpos' hlabels', ?_⟩
  -- equal texts have equal lines, hence equal trees of labels; and handles are not printed
  constructor
  · intro h
    have hlines := congrArg Text.lines h
    rw [lines_render hpos hlabels, lines_render hpos' hlabels'] at hlines
    exact hl.exists_renumbers hl' hpos hpos' (Rose.drawing_injective hlines)
  · rintro ⟨σ, hσ⟩
    exact hσ.render_eq.symm

/-- What holds of the labels in the store holds of every label that a handle leads to. -/
theorem forall_label?_of_forall_mem {P : String → Prop}
    (h : ∀ node ∈ t.nodes.toList, P node.label) : ∀ n label, t.label? n = some label → P label := by
  intro n label hlabel
  obtain ⟨node, hnode, rfl⟩ := Option.map_eq_some_iff.1 hlabel
  obtain ⟨hn, rfl⟩ := node?_eq_some_iff.1 hnode
  exact h _ (Array.getElem_mem_toList hn)

/-- Labels that look like guides and connectors, and nodes added in two orders. -/
theorem render_eq_iff_guides :
    let t := (ofRoot "│   home").afterEdits
      [.addChild 0 "├── a", .addChild 0 "    b", .addChild 1 "└── c"]
    let u := (ofRoot "│   home").afterEdits
      [.addChild 0 "├── a", .addChild 1 "└── c", .addChild 0 "    b"]
    t.render = "│   home\n├── ├── a\n│   └── └── c\n└──     b\n" ∧
    (Text.lines t.render).length = 4 ∧ t ≠ u ∧ ∃ σ, t.Renumbers u σ := by
  intro t u
  have ht : t.Reachable := ⟨_, _, .ofRoot "│   home", rfl⟩
  have hu : u.Reachable := ⟨_, _, .ofRoot "│   home", rfl⟩
  have hsize : t.size = 4 := by unfold t; cbv
  have hsize' : u.size = 4 := by unfold u; cbv
  have hdrawing : Rose.drawing "" "" (t.labelled 0) =
      ["│   home", "├── ├── a", "│   └── └── c", "└──     b"] := by unfold t; cbv
  have hdrawing' : Rose.drawing "" "" (u.labelled 0) =
      ["│   home", "├── ├── a", "│   └── └── c", "└──     b"] := by unfold u; cbv
  have hrender : t.render = "│   home\n├── ├── a\n│   └── └── c\n└──     b\n" := by
    rw [render_of_pos (by omega), hdrawing]
    rfl
  have hrender' : u.render = "│   home\n├── ├── a\n│   └── └── c\n└──     b\n" := by
    rw [render_of_pos (by omega), hdrawing']
    rfl
  have hne : ¬ t.isEmpty := by unfold t; decide +kernel
  have hne' : ¬ u.isEmpty := by unfold u; decide +kernel
  have hlabels : ∀ n label, t.label? n = some label → '\n' ∉ label.toList :=
    forall_label?_of_forall_mem (by unfold t; decide +kernel)
  have hlabels' : ∀ n label, u.label? n = some label → '\n' ∉ label.toList :=
    forall_label?_of_forall_mem (by unfold u; decide +kernel)
  -- the handles differ: the same node is under another one in the second tree
  have hdifferent : t.parent? 2 ≠ u.parent? 2 := by unfold t u; decide +kernel
  obtain ⟨hlines, -, hiff⟩ := render_eq_iff ht hu hne hne' hlabels hlabels'
  refine ⟨hrender, hlines.trans hsize, ?_, hiff.1 (hrender.trans hrender'.symm)⟩
  intro hsame
  exact hdifferent (congrArg (fun v => v.parent? 2) hsame)

end Tree

end ComboTree
