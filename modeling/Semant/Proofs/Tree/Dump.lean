import Semant.Proofs.Tree.Labels
import Semant.Proofs.Tree.Visits

/-! The lines of a dump. A walk writes the line of each node that it meets, two spaces deeper for
each step of the node's address, and comes back to the depth that it started from. A label without
line feeds makes one line of it. -/

namespace Semant

/-- Lines with a line feed after each. -/
def unlines (lines : List (List Char)) : List Char :=
  lines.flatMap (· ++ ['\n'])

theorem unlines_cons (line : List Char) (lines : List (List Char)) :
    unlines (line :: lines) = line ++ '\n' :: unlines lines := by
  simp [unlines]

theorem unlines_append (lines lines' : List (List Char)) :
    unlines (lines ++ lines') = unlines lines ++ unlines lines' :=
  List.flatMap_append

theorem splitOn_unlines {lines : List (List Char)} (h : ∀ line ∈ lines, '\n' ∉ line) :
    (unlines lines).splitOn '\n' = lines ++ [[]] := by
  induction lines with
  | nil => rfl
  | cons line lines ih =>
    obtain ⟨hline, hlines⟩ := List.forall_mem_cons.mp h
    rw [unlines_cons, List.splitOn_append_cons_self_of_not_mem hline, ih hlines]
    rfl

theorem count_unlines (lines : List (List Char)) :
    (unlines lines).count '\n' = lines.length + (lines.map (·.count '\n')).sum := by
  induction lines with
  | nil => rfl
  | cons line lines ih =>
    rw [unlines_cons, List.count_append, List.count_cons_self, ih]
    simp
    omega

namespace Node

/-- The line of a node, without the line feed. -/
def line (depth : Nat) (node : Node) : List Char :=
  List.replicate (2 * depth) ' ' ++ node.label.toList

/-- The line of the node at an address, the tree being dumped at a depth. -/
def lineAt (node : Node) (depth : Nat) (address : List Nat) : List Char :=
  (node.at? address).elim [] (line (depth + address.length))

theorem lineAt_nil (node : Node) (depth : Nat) : node.lineAt depth [] = node.met.line depth :=
  rfl

theorem lineAt_cons {node child : Node} {i : Nat} (hi : node.children[i]? = some child)
    (depth : Nat) (rest : List Nat) :
    node.lineAt depth (i :: rest) = child.lineAt (depth + 1) rest := by
  rw [lineAt, at?, hi, Option.bind_some, List.length_cons, Nat.add_comm rest.length,
    ← Nat.add_assoc, lineAt]

end Node

namespace Dump

/-- The walk adds lines that depend on the depth only, and keeps the depth. -/
def Writes (walk : Page → Page) (lines : Nat → List (List Char)) : Prop :=
  ∀ page, (walk page).depth = page.depth ∧
    (walk page).text.toList = page.text.toList ++ unlines (lines page.depth)

theorem writes_children {children : List Node} {lines : Node → Nat → List (List Char)}
    (h : ∀ child ∈ children, Writes (child.walk visitLines) (lines child)) :
    Writes (fun page => children.foldl (fun page child => child.walk visitLines page) page)
      (fun depth => children.flatMap (lines · depth)) := by
  intro page
  induction children generalizing page with
  | nil => exact ⟨rfl, (List.append_nil _).symm⟩
  | cons child children ih =>
    obtain ⟨hchild, hchildren⟩ := List.forall_mem_cons.mp h
    obtain ⟨hdepth, htext⟩ := hchild page
    obtain ⟨hdepth', htext'⟩ := ih hchildren (child.walk visitLines page)
    refine ⟨hdepth'.trans hdepth, ?_⟩
    simp only [List.foldl_cons, List.flatMap_cons, unlines_append] at htext' ⊢
    rw [htext', htext, hdepth, List.append_assoc]

theorem visitLines_eq : visitLines = Visitor.around
    (fun node _ page => ⟨page.depth + 1,
      page.text ++ ("".pushn ' ' (2 * page.depth) ++ node.label ++ "\n")⟩)
    (fun _ page => { page with depth := page.depth - 1 }) := by
  rfl

/-- The node's own line comes first; below it the depth is one more, and goes back after it. -/
theorem writes_node {node : Node} {lines : Nat → List (List Char)}
    (h : Writes
      (fun page => node.children.foldl (fun page child => child.walk visitLines page) page) lines) :
    Writes (node.walk visitLines) (fun depth => node.met.line depth :: lines (depth + 1)) := by
  intro page
  rw [visitLines_eq, Node.walk_around, ← visitLines_eq]
  obtain ⟨hdepth, htext⟩ := h ⟨page.depth + 1,
    page.text ++ ("".pushn ' ' (2 * page.depth) ++ node.met.label ++ "\n")⟩
  refine ⟨by simp only [hdepth, Nat.add_sub_cancel], ?_⟩
  simp only [htext, unlines_cons, Node.line, String.toList_append, Decimal.toList_pushn,
    List.append_assoc]
  rfl

theorem exists_lines (node : Node) : ∃ addresses, node.Lists addresses ∧
    Writes (node.walk visitLines) (fun depth => addresses.map (node.lineAt depth)) := by
  induction node using Node.of_children with
  | h node ih =>
    choose! below hlists hwrites using ih
    refine ⟨_, .of_children hlists, ?_⟩
    have hlines : ∀ depth, ([] :: Node.addressesBelow below node.children).map (node.lineAt depth) =
        node.met.line depth ::
          node.children.flatMap fun child => (below child).map (child.lineAt (depth + 1)) := by
      intro depth
      rw [List.map_cons, Node.lineAt_nil]
      refine congrArg (node.met.line depth :: ·) (Node.map_addressesBelow fun i child hi => ?_)
      exact List.map_congr_left fun rest _ => Node.lineAt_cons hi depth rest
    simp only [hlines]
    exact writes_node (writes_children hwrites)

end Dump

namespace Node

theorem dump_eq {node : Node} {addresses : List (List Nat)}
    (h : Dump.Writes (node.walk Dump.visitLines)
      (fun depth => addresses.map (node.lineAt depth))) :
    node.dump.toList = unlines (addresses.map (node.lineAt 0)) :=
  (h { depth := 0, text := "" }).2

/-- Apart from its indentation, the line at an address is the label of the node there. -/
theorem count_lineAt {node visited : Node} {address : List Nat}
    (hat : node.at? address = some visited)
    (hwords : ∀ word ∈ visited.words, '\n' ∉ word.toList) :
    (node.lineAt 0 address).count '\n' = visited.isLineFeed.toNat := by
  rw [lineAt, hat, Option.elim_some, line, List.count_append,
    List.count_eq_zero.mpr (by simp [List.mem_replicate]), Nat.zero_add]
  exact lineFeeds_label hwords

theorem exists_label (node : Node) :
    ∃ rest, node.label.toList = node.kindName.toList ++ rest := by
  unfold label
  split
  · rw [String.toList_append, String.toList_append, List.append_assoc]
    exact ⟨_, rfl⟩
  · exact ⟨[], (List.append_nil _).symm⟩

theorem sum_count_lineAt {node : Node} {addresses : List (List Nat)} (h : node.Lists addresses)
    (hwords : ∀ visited ∈ node.preorder, ∀ word ∈ visited.words, '\n' ∉ word.toList) :
    ((addresses.map (node.lineAt 0)).map (·.count '\n')).sum = node.preorder.countP isLineFeed := by
  have hcounts : (addresses.map (node.lineAt 0)).map (·.count '\n') =
      (addresses.map node.at?).map fun found => found.elim 0 (·.isLineFeed.toNat) := by
    rw [List.map_map, List.map_map]
    refine List.map_congr_left fun address haddress => ?_
    obtain ⟨visited, hvisited, hat⟩ := h.exists_visited haddress
    simp only [Function.comp_apply, hat, Option.elim_some]
    exact count_lineAt hat (hwords visited hvisited)
  rw [hcounts, h.nodes]
  generalize node.preorder = nodes
  induction nodes with
  | nil => rfl
  | cons visited nodes ih =>
    rw [List.map_cons, List.map_cons, List.sum_cons, ih, List.countP_cons, Nat.add_comm]
    cases hfeed : visited.isLineFeed <;> simp [hfeed]

/-- The dump of a tree whose names and symbols have no line feeds has one line feed for each node
that a walk meets, and one more for each literal of the line feed. Without such literals it has as
many lines as the walk meets nodes, each ended by a line feed. The line of a node has two spaces for
each step of the node's address and goes on with the name of its kind. -/
theorem dump_lines (node : Node)
    (hwords : ∀ visited ∈ node.preorder, ∀ word ∈ visited.words, '\n' ∉ word.toList) :
    node.dump.toList.count '\n' = node.preorder.length + node.preorder.countP isLineFeed ∧
      ((∀ visited ∈ node.preorder, visited.isLineFeed = false) →
        ∃ addresses lines, node.Lists addresses ∧
          node.dump.toList.splitOn '\n' = lines ++ [[]] ∧ lines.length = node.preorder.length ∧
          ∀ (i : Nat) (visited : Node) (address : List Nat),
            node.preorder[i]? = some visited → addresses[i]? = some address →
            ∃ rest, lines[i]? = some
              (List.replicate (2 * address.length) ' ' ++ visited.kindName.toList ++ rest)) := by
  obtain ⟨addresses, hlists, hwrites⟩ := Dump.exists_lines node
  have hdump := dump_eq hwrites
  constructor
  · rw [hdump, count_unlines, List.length_map, hlists.length_eq, sum_count_lineAt hlists hwords]
  · intro hfeeds
    refine ⟨addresses, addresses.map (node.lineAt 0), hlists, ?_, ?_, ?_⟩
    · rw [hdump]
      refine splitOn_unlines fun line hline => ?_
      obtain ⟨address, haddress, rfl⟩ := List.mem_map.mp hline
      obtain ⟨visited, hvisited, hat⟩ := hlists.exists_visited haddress
      refine List.count_eq_zero.mp ?_
      rw [count_lineAt hat (hwords visited hvisited), hfeeds visited hvisited]
      rfl
    · rw [List.length_map, hlists.length_eq]
    · intro i visited address hvisited haddress
      obtain ⟨rest, hrest⟩ := visited.exists_label
      refine ⟨rest, ?_⟩
      rw [List.getElem?_map, haddress, Option.map_some, lineAt,
        hlists.at?_of_getElem? haddress hvisited, Option.elim_some, line, hrest, Nat.zero_add,
        List.append_assoc]

/-- A sum of a text of two lines and a variable. -/
def sketch : Node :=
  let text := .literal (.string "a\nb") (.resolved (.object "Text" [.builtin .int] none)) {}
  .block (.mk [.expr (.binary text .add (.var "x" .unresolved {}) .unresolved {})] {})

theorem dump_lines_sketch :
    (∀ visited ∈ sketch.preorder, ∀ word ∈ visited.words, '\n' ∉ word.toList) ∧
      (∀ visited ∈ sketch.preorder, visited.isLineFeed = false) ∧
      sketch.dump.toList.count '\n' = 4 ∧
      ∃ addresses lines, sketch.Lists addresses ∧
        sketch.dump.toList.splitOn '\n' = lines ++ [[]] ∧ lines.length = 4 := by
  have hwords : ∀ visited ∈ sketch.preorder, ∀ word ∈ visited.words, '\n' ∉ word.toList := by
    decide +kernel
  have hfeeds : ∀ visited ∈ sketch.preorder, visited.isLineFeed = false := by decide +kernel
  have hlength : sketch.preorder.length = 4 := by decide +kernel
  have hcount : sketch.preorder.countP isLineFeed = 0 := by decide +kernel
  obtain ⟨hfeed, hlines⟩ := dump_lines sketch hwords
  obtain ⟨addresses, lines, hlists, hsplit, hlen, -⟩ := hlines hfeeds
  rw [hlength, hcount] at hfeed
  exact ⟨hwords, hfeeds, hfeed, addresses, lines, hlists, hsplit, hlen.trans hlength⟩

def feed : Node :=
  .expr (.literal (.char '\n') .unresolved {})

/-- A literal of the line feed is one node without names or symbols, and takes two lines. -/
theorem dump_splits_feed :
    (∀ visited ∈ feed.preorder, ∀ word ∈ visited.words, '\n' ∉ word.toList) ∧
      feed.preorder.length = 1 ∧
      feed.dump.toList.splitOn '\n' = ["Literal: '".toList, "'".toList, []] := by
  decide +kernel

end Node

end Semant
