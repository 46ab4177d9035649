import Stencil.Proofs.Printing.Layout

-- Where the pieces of the source stand: what is around them, and what is written before them.
namespace Stencil.Source

variable (literal : String → String)

-- A piece of the source, with the loops around it, the innermost one first, and the writer that it
-- is written with.
structure Place where
  loops : List Loop
  writer : Writer
  piece : Piece

-- The loops around what comes after a piece.
def Piece.around : Piece → List Loop → List Loop
  | enter l, loops => l :: loops
  | leave, loops => loops.tail
  | _, loops => loops

def places (loops : List Loop) (w : Writer) : List Piece → List Place
  | [] => []
  | p :: ps => ⟨loops, w, p⟩ :: places (p.around loops) (p.write literal w) ps

def Place.inner (p : Place) : List Place :=
  match p.piece with
  | .node c => places literal p.loops p.writer (layout literal c)
  | _ => []

-- All places in what is written at a place.
inductive Place.Holds (p : Place) : Place → Prop
  | self : Holds p p
  | inner {q r} : Holds p q → r ∈ q.inner literal → Holds p r

def Piece.isNode : Piece → Bool
  | node _ => true
  | _ => false

-- The nodes right below the node at a place.
def Place.nodes (p : Place) : List Place :=
  (p.inner literal).filter (·.piece.isNode)

-- The place that is reached by going down to a node again and again, which is told by its index.
def Place.nodeAt? (p : Place) : List Nat → Option Place
  | [] => some p
  | i :: path => (p.nodes literal)[i]?.bind (nodeAt? · path)

variable {literal} {w : Writer} {loops : List Loop} {ps : List Piece} {p q r : Place}

theorem map_places (loops : List Loop) (w : Writer) (ps : List Piece) :
    (places literal loops w ps).map Place.piece = ps := by
  induction ps generalizing loops w
  case nil => rfl
  case cons p ps hi => rw [places, List.map_cons, hi]

theorem Place.exists_node (hq : q ∈ p.inner literal) : ∃ c, p.piece = .node c := by
  unfold inner at hq
  split at hq
  case h_1 c hc => exact ⟨c, hc⟩
  case h_2 => contradiction

theorem Place.exists_inner {c : Code} {piece : Piece} (hp : p.piece = .node c)
    (h : piece ∈ layout literal c) : ∃ q ∈ p.inner literal, q.piece = piece := by
  rw [←map_places p.loops p.writer (layout literal c)] at h
  simpa [inner, hp] using h

theorem Place.Holds.trans (h : p.Holds literal q) (h' : q.Holds literal r) : p.Holds literal r := by
  induction h'
  case self => exact h
  case inner hr hi => exact hi.inner hr

section

variable {c : Code} {piece : Piece}

-- What is written for a node, apart from the function of a loop.
def Piece.Outside (c : Code) : Piece → Prop
  | raw _ | constant _ => True
  | own x => x ∈ c.ownNames
  | slot n => c = .slot n
  | node c' => c' ∈ c.operands
  | enter l => ∃ buffer container body, c = .each buffer l.slot l.key l.value container body
  | leave => False

-- What is written in the function of a loop.
def Piece.Inside (buffer : Temp) (body : Code) : Piece → Prop
  | raw _ | leave => True
  | own x => x = buffer.name
  | node c => c = body
  | _ => False

theorem outside_separated {pss : List (List Piece)} :
    (∀ p ∈ separated pss, p.Outside c) ↔ ∀ ps ∈ pss, ∀ p ∈ ps, p.Outside c := by
  fun_induction separated pss
  case case1 => simp
  case case2 => simp
  case case3 ps pss _ hi =>
    have hr : (Piece.raw ", ").Outside c := trivial
    simp only [List.forall_mem_append, List.forall_mem_cons, hi, hr, true_and]

theorem outside_layout (literal : String → String) (hc : c.loopBody? = none) :
    ∀ p ∈ layout literal c, p.Outside c := by
  cases c
  case each => contradiction
  case unary op operand =>
    rw [layout]
    split <;> simp [Piece.Outside, Code.operands]
  case invoke d o selector name =>
    cases name <;> simp [layout, Piece.Outside, Code.operands, Code.ownNames]
  all_goals
    simp only [layout, List.forall_mem_cons, List.forall_mem_append, List.cons_append,
      outside_separated]
  all_goals simp [Piece.Outside, Code.operands, Code.ownNames, keyPiece]
  all_goals grind

theorem Piece.Outside.around_eq (h : piece.Outside c) (hc : c.loopBody? = none) :
    piece.around loops = loops := by
  cases piece
  case enter l =>
    have ⟨_, _, _, he⟩ := h
    simp [he, Code.loopBody?] at hc
  case leave => contradiction
  all_goals rfl

theorem loops_eq_of_mem_places (h : ∀ p ∈ ps, ∀ loops, p.around loops = loops)
    (hq : q ∈ places literal loops w ps) : q.loops = loops := by
  induction ps generalizing w
  case nil => contradiction
  case cons p ps hi =>
    have ⟨hp, hs⟩ := List.forall_mem_cons.mp h
    cases hq
    case head => rfl
    case tail hq => exact hi hs (hp loops ▸ hq)

theorem mem_places_each {buffer : Temp} {slot : Nat} {key value : String} {container body : Code} :
    ∀ q ∈ places literal loops w (layout literal (.each buffer slot key value container body)),
      (q.loops = loops ∧ q.piece.Outside (.each buffer slot key value container body)) ∨
      (q.loops = ⟨slot, key, value⟩ :: loops ∧ q.piece.Inside buffer body) := by
  simp [layout, places, Piece.around, Piece.Outside, Piece.Inside, Code.operands, Code.ownNames]

-- The pieces of a node are inside of the loops that the node is inside of. Those in the function of
-- a loop are inside of that loop too.
theorem Place.mem_inner (hp : p.piece = .node c) (hq : q ∈ p.inner literal) :
    (q.loops = p.loops ∧ q.piece.Outside c) ∨
    ∃ buffer slot key value container body,
      c = .each buffer slot key value container body ∧
      q.loops = ⟨slot, key, value⟩ :: p.loops ∧ q.piece.Inside buffer body := by
  simp only [inner, hp] at hq
  cases hc : c.loopBody?
  case none =>
    have ho := outside_layout literal hc
    have hm := map_places p.loops p.writer (layout literal c) ▸ List.mem_map_of_mem hq
    exact .inl ⟨loops_eq_of_mem_places (fun p hp _ => (ho p hp).around_eq hc) hq, ho _ hm⟩
  case some =>
    cases c
    case each buffer slot key value container body =>
      exact (mem_places_each q hq).imp_right fun h => ⟨_, _, _, _, _, _, rfl, h⟩
    all_goals contradiction

end

theorem Place.loops_subset (hq : q ∈ p.inner literal) : p.loops ⊆ q.loops := by
  have ⟨_, hp⟩ := exists_node hq
  obtain ⟨he, _⟩ | ⟨_, _, _, _, _, _, _, he, _⟩ := mem_inner hp hq
  · exact he ▸ List.Subset.refl _
  · exact he ▸ List.subset_cons_self ..

theorem filter_separated (pss : List (List Piece)) :
    (separated pss).filter Piece.isNode = pss.flatMap (List.filter Piece.isNode) := by
  fun_induction separated pss
  case case1 => rfl
  case case2 => simp
  case case3 ps pss _ hi => simp [hi, Piece.isNode]

theorem filter_layout (c : Code) :
    (layout literal c).filter Piece.isNode = (c.operands ++ c.loopBody?.toList).map .node := by
  cases c
  case unary op operand =>
    rw [layout]
    split <;> rfl
  case invoke d o selector name => cases name <;> rfl
  case array | object | call | merge =>
    simp only [layout, Code.operands, Code.loopBody?, filter_separated, keyPiece, Piece.isNode,
      List.filter_cons, List.filter_append, List.filter_flatMap, List.flatMap_map]
    simp [←List.map_eq_flatMap, Function.comp_def]
  all_goals rfl

theorem Place.getElem?_nodes (literal : String → String) {c c' : Code} {i : Nat}
    (hp : p.piece = .node c) (hc : c.loopBody? = none) (h : c.operands[i]? = some c') :
    ∃ q, (p.nodes literal)[i]? = some q ∧ q.piece = .node c' ∧ q.loops = p.loops := by
  have hm : (p.nodes literal).map Place.piece = c.operands.map .node := by
    simp only [nodes, inner, hp]
    rw [←Function.comp_def, ←List.filter_map, map_places, filter_layout, hc, Option.toList_none,
      List.append_nil]
  have hi : ((p.nodes literal).map Place.piece)[i]? = some (.node c') := by
    rw [hm, List.getElem?_map, h, Option.map_some]
  have ⟨q, hq, hqc⟩ := Option.map_eq_some_iff.mp (List.getElem?_map ▸ hi)
  refine ⟨q, hq, hqc, ?_⟩
  obtain h | ⟨_, _, _, _, _, _, he, _⟩ :=
    mem_inner hp (List.mem_filter.mp (List.mem_of_getElem? hq)).1
  · exact h.1
  · simp [he, Code.loopBody?] at hc

theorem Place.nodes_each (literal : String → String) {buffer : Temp} {slot : Nat}
    {key value : String} {container body : Code}
    (hp : p.piece = .node (.each buffer slot key value container body)) :
    ∃ w w', p.nodes literal =
      [⟨p.loops, w, .node container⟩, ⟨⟨slot, key, value⟩ :: p.loops, w', .node body⟩] := by
  simp only [nodes, inner, hp]
  exact ⟨_, _, rfl⟩

theorem Place.Holds.nodeAt? {path : List Nat} (h : p.Holds literal q)
    (hr : q.nodeAt? literal path = some r) : p.Holds literal r := by
  induction path generalizing q
  case nil =>
    cases hr
    exact h
  case cons i path hi =>
    have ⟨q', hq, hr⟩ := Option.bind_eq_some_iff.mp hr
    exact hi (h.inner (List.mem_filter.mp (List.mem_of_getElem? hq)).1) hr

-- The names of the loop variables by slot.
def bound : List Loop → List String
  | [] => []
  | l :: loops => bound loops ++ [l.key, l.value]

theorem Piece.names_write (piece : Piece) (hw : w.names = bound loops) :
    (piece.write literal w).names = bound (piece.around loops) := by
  cases piece
  case raw | own | slot => exact hw
  case constant v => exact (appends_writeValue literal w v).names_eq.trans hw
  case node c => exact (appends_write literal w c).names_eq.trans hw
  case enter l => exact congrArg (· ++ [l.key, l.value]) hw
  case leave =>
    cases loops <;>
      simp [write, around, Writer.dedent, Writer.newline, Writer.unbind, Writer.push, hw, bound]

theorem names_of_mem_places (hw : w.names = bound loops) (hq : q ∈ places literal loops w ps) :
    q.writer.names = bound q.loops := by
  induction ps generalizing loops w
  case nil => contradiction
  case cons p ps hi =>
    cases hq
    case head => exact hw
    case tail hq => exact hi (p.names_write hw) hq

-- Whatever is written is appended to the text so far.
theorem Piece.code_write (piece : Piece) (w : Writer) :
    ∃ s, (piece.write literal w).code = w.code ++ s := by
  cases piece
  case raw | own | slot => exact ⟨_, rfl⟩
  case constant v =>
    have ⟨s, hs⟩ := appends_writeValue literal w v
    exact ⟨s, congrArg Writer.code hs⟩
  case node c =>
    have ⟨s, hs⟩ := appends_write literal w c
    exact ⟨s, congrArg Writer.code hs⟩
  case enter l =>
    simp [write, Writer.newline, Writer.indent, Writer.bind, Writer.push, String.append_assoc]
  case leave =>
    simp [write, Writer.newline, Writer.dedent, Writer.unbind, Writer.push, String.append_assoc]

theorem code_writePieces (ps : List Piece) (w : Writer) :
    ∃ s, (writePieces literal ps w).code = w.code ++ s := by
  induction ps generalizing w
  case nil => exact ⟨"", String.append_empty.symm⟩
  case cons p ps hi =>
    have ⟨s, hs⟩ : ∃ s, (p.write literal w).code = w.code ++ s := p.code_write w
    have ⟨t, ht⟩ := hi (p.write literal w)
    exact ⟨s ++ t, by rw [writePieces, ht, hs, String.append_assoc]⟩

theorem code_of_mem_places (hq : q ∈ places literal loops w ps) :
    ∃ s, (writePieces literal ps w).code = (q.piece.write literal q.writer).code ++ s := by
  induction ps generalizing loops w
  case nil => contradiction
  case cons p ps hi =>
    cases hq
    case head => exact code_writePieces ps _
    case tail hq => exact hi hq

-- What is written for a node begins with what is there once a piece of it has been written.
theorem Place.Holds.code_eq (h : p.Holds literal q) :
    ∃ s, (p.piece.write literal p.writer).code = (q.piece.write literal q.writer).code ++ s := by
  induction h
  case self => exact ⟨"", String.append_empty.symm⟩
  case inner q r _ hr hi =>
    have ⟨c, hq⟩ := exists_node hr
    have ⟨s, hs⟩ := hi
    simp only [Place.inner, hq] at hr
    have ⟨t, ht⟩ := code_of_mem_places hr
    rw [hq, Piece.write, write_eq, ht] at hs
    exact ⟨t ++ s, by rw [hs, String.append_assoc]⟩

end Stencil.Source
