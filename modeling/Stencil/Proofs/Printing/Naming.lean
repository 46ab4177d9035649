import Stencil.Proofs.Compiling.Draft
import Stencil.Proofs.Printing.Places

-- Which names stand for loop variables in the source of a template, and which parameters those
-- names belong to.
namespace Stencil

def Expr.operands : Expr → List Expr
  | literal _ | name _ => []
  | array items => items
  | object entries => entries.map (·.2)
  | member o _ => [o]
  | index o i => [o, i]
  | call callee arguments => callee :: arguments
  | unary _ operand => [operand]
  | binary _ lhs rhs => [lhs, rhs]
  | cond test consequent alternate => [test, consequent, alternate]

namespace Draft

def operands : Draft → List Draft
  | text _ | passedData | options => []
  | expression e => e.operands.map expression
  | concat lhs rhs => [lhs, rhs]
  | cond test consequent alternate => [test, consequent, alternate]
  | pass callee argument => [callee, argument]
  | dethunk value => [value]
  | each _ container body => [container, body]
  | invoke d o selector => [d, o, selector]

-- The part of a draft that is reached by going down to an operand again and again, which is told by
-- its index.
def at? (d : Draft) : List Nat → Option Draft
  | [] => some d
  | i :: path => d.operands[i]?.bind (at? · path)

end Draft

theorem Expr.listToCode_eq (s : Scope) (es : List Expr) : listToCode s es = es.map (toCode s) := by
  induction es
  case nil => rfl
  case cons e es hi => rw [listToCode, hi, List.map_cons]

theorem Expr.entriesToCode_eq (s : Scope) (entries : List (String × Expr)) :
    entriesToCode s entries = entries.map fun e => (e.1, e.2.toCode s) := by
  induction entries
  case nil => rfl
  case cons e entries hi => rw [entriesToCode, hi, List.map_cons]

theorem Scope.leaf_resolve (s : Scope) (x : String) :
    (s.resolve x).operands = [] ∧ (s.resolve x).loopBody? = none := by
  unfold resolve
  split
  case h_1 => exact ⟨rfl, rfl⟩
  case h_2 =>
    split
    case isTrue => exact ⟨rfl, rfl⟩
    case isFalse => split <;> exact ⟨rfl, rfl⟩

theorem Scope.slot?_eq_of_resolve {s : Scope} {x : String} {n : Nat}
    (h : s.resolve x = .slot n) : s.slot? x = some n := by
  unfold resolve at h
  split at h
  case h_1 hn => exact Code.slot.inj h ▸ hn
  case h_2 =>
    split at h
    case isTrue => contradiction
    case isFalse => split at h <;> contradiction

theorem Expr.operands_toCode (s : Scope) (e : Expr) :
    (e.toCode s).operands = e.operands.map (toCode s) := by
  cases e
  case name x => exact (s.leaf_resolve x).1
  case array items => exact listToCode_eq s items
  case object entries => simp [toCode, Code.operands, operands, entriesToCode_eq]
  case call callee arguments => simp [toCode, Code.operands, operands, listToCode_eq]
  all_goals rfl

theorem Expr.loopBody?_toCode (s : Scope) (e : Expr) : (e.toCode s).loopBody? = none := by
  cases e
  case name x => exact (s.leaf_resolve x).2
  all_goals rfl

-- The code of an operand of a draft is an operand of its code.
theorem Draft.getElem?_operands {d d' : Draft} {i : Nat} {loops : List LoopNames}
    (hd : (d.code loops).loopBody? = none) (h : d.operands[i]? = some d') :
    (d.code loops).operands[i]? = some (d'.code loops) := by
  have hm (ho : (d.code loops).operands = d.operands.map (code loops)) :
      (d.code loops).operands[i]? = some (d'.code loops) := by
    rw [ho, List.getElem?_map, h, Option.map_some]
  cases d
  case text | passedData | options => contradiction
  case expression e =>
    apply hm
    rw [code, operands, e.operands_toCode, List.map_map]
    rfl
  case each => contradiction
  all_goals exact hm rfl

namespace Source

def Loop.names (l : Loop) : LoopNames :=
  ⟨l.key, l.value⟩

-- The slot of the parameter that a name refers to in the function of a loop. The last parameter
-- counts if both have that name.
def Loop.param? (x : String) (l : Loop) : Option Nat :=
  if l.value = x then some (l.slot + 1)
  else if l.key = x then some l.slot
  else none

-- Each loop has the two slots after those of the loops around it.
def Numbered : List Loop → Prop
  | [] => True
  | l :: loops => l.slot = 2 * loops.length ∧ Numbered loops

section

variable {loops : List Loop} {x : String} {n : Nat}

theorem bound_eq (loops : List Loop) :
    bound loops = (Scope.namesOf (loops.map Loop.names)).map (·.1) := by
  induction loops
  case nil => rfl
  case cons l loops hi => simp [bound, Scope.namesOf, hi, Loop.names]

theorem length_bound (loops : List Loop) : (bound loops).length = 2 * loops.length := by
  rw [bound_eq, List.length_map, Scope.length_namesOf, List.length_map]

theorem findSome?_param? (h : Numbered loops) :
    loops.findSome? (Loop.param? x) = Scope.slotIn? x (loops.map Loop.names) := by
  induction loops
  case nil => rfl
  case cons l loops hi =>
    simp only [List.findSome?_cons, List.map_cons, Scope.slotIn?, List.length_map, hi h.2]
    simp only [Loop.param?, Loop.names, h.1]
    by_cases hv : l.value = x
    case pos => simp [hv]
    case neg => by_cases hk : l.key = x <;> simp [hv, hk]

-- A slot has the name of the key or the value of the loop that it belongs to.
theorem getElem?_bound (h : Numbered loops) (hn : n < 2 * loops.length) :
    ∃ l ∈ loops, n = l.slot + n % 2 ∧
      (bound loops)[n]? = some (if n % 2 = 0 then l.key else l.value) := by
  induction loops
  case nil => contradiction
  case cons l loops hi =>
    have hl := length_bound loops
    by_cases hb : n < 2 * loops.length
    case pos =>
      have ⟨l', hm, hs, hg⟩ := hi h.2 hb
      exact ⟨l', .tail _ hm, hs, by rw [bound, List.getElem?_append_left (by omega), hg]⟩
    case neg =>
      have hs : l.slot = 2 * loops.length := h.1
      simp only [List.length_cons] at hn
      refine ⟨l, .head _, by omega, ?_⟩
      rw [bound, List.getElem?_append_right (by omega), hl]
      obtain hn | hn : n = 2 * loops.length ∨ n = 2 * loops.length + 1 := by omega
      · simp [hn]
      · simp [hn]

end

-- What is written at a place inside of `d` loops.
def Piece.Fits (d : Nat) : Piece → Prop
  | slot n => n < 2 * d
  | enter l => l.slot = 2 * d
  | node c => ∀ p ∈ c.nodesAt d, p.2.Fits p.1
  | _ => True

section

variable {c : Code} {d : Nat} {piece : Piece}

theorem Piece.fits_node (h : (node c).Fits d) :
    c.Fits d ∧ (∀ c' ∈ c.operands, (node c').Fits d) ∧
      ∀ body ∈ c.loopBody?, (node body).Fits (d + 1) := by
  rw [Fits, Code.nodesAt_eq, List.forall_mem_cons, List.forall_mem_append] at h
  have ⟨hc, ho, hb⟩ := h
  refine ⟨hc, fun c' hc' x hx => ?_, fun body hc' x hx => ?_⟩
  · exact ho x (List.mem_flatMap.mpr ⟨c', hc', hx⟩)
  · exact hb x (List.mem_flatMap.mpr ⟨body, Option.mem_toList.mpr hc', hx⟩)

theorem Piece.Outside.fits (h : piece.Outside c) (hc : (node c).Fits d) : piece.Fits d := by
  have ⟨hc, ho, _⟩ := fits_node hc
  cases piece
  case slot =>
    have hs : c = .slot _ := h
    exact hs.subst (motive := Code.Fits d) hc
  case node c' => exact ho c' h
  case enter =>
    have ⟨_, _, _, he⟩ := h
    exact (he ▸ hc).2
  all_goals trivial

theorem Piece.Inside.fits {buffer : Temp} {body : Code} (h : piece.Inside buffer body)
    (hb : (node body).Fits d) : piece.Fits d := by
  cases piece
  case node => exact (h : _ = body) ▸ hb
  all_goals trivial

end

-- The writer has the names of the loops around a place, and what is written there refers to them.
structure Place.Sound (p : Place) : Prop where
  names_eq : p.writer.names = bound p.loops
  numbered : Numbered p.loops
  fits : p.piece.Fits p.loops.length

variable {literal : String → String} {p q r : Place}

theorem Place.Sound.inner (h : p.Sound) (hq : q ∈ p.inner literal) : q.Sound := by
  obtain ⟨c, hp⟩ := exists_node hq
  have hc : (Piece.node c).Fits p.loops.length := hp ▸ h.fits
  have hn : q.writer.names = bound q.loops := by
    simp only [Place.inner, hp] at hq
    exact names_of_mem_places h.names_eq hq
  obtain ⟨hl, ho⟩ | ⟨_, _, _, _, _, body, he, hl, hi⟩ := mem_inner hp hq
  · exact ⟨hn, hl ▸ h.numbered, hl ▸ ho.fits hc⟩
  · subst he
    obtain ⟨hs, _, hb⟩ := Piece.fits_node hc
    exact ⟨hn, hl ▸ ⟨hs.2, h.numbered⟩, hl ▸ hi.fits (hb body rfl)⟩

theorem Place.Sound.holds (h : p.Sound) (hq : p.Holds literal q) : q.Sound := by
  induction hq
  case self => exact h
  case inner hr hi => exact hi.inner hr

-- A slot is written as a name that the writer has for it, and not as one that is made up.
def Place.Writes (literal : String → String) (p : Place) (n : Nat) (x : String) : Prop :=
  p.writer.names[n]? = some x ∧ write literal (.slot n) p.writer = p.writer.push x

theorem Place.writes_of_getElem? {n : Nat} {x : String} (h : p.writer.names[n]? = some x) :
    p.Writes literal n x :=
  ⟨h, by rw [write, Writer.nameOf, h, Option.getD_some]⟩

-- A place where a draft is written, with its names looked up in the loops around the place.
def Place.Shows (p : Place) (d : Draft) : Prop :=
  p.piece = .node (d.code (p.loops.map Loop.names))

-- An operand of a draft is written where the node with its index is written.
theorem Place.Shows.operand (literal : String → String) {d d' : Draft} {i : Nat} (h : p.Shows d)
    (hd : d.operands[i]? = some d') : ∃ q, (p.nodes literal)[i]? = some q ∧ q.Shows d' := by
  have hn (hc : (d.code (p.loops.map Loop.names)).loopBody? = none) :
      ∃ q, (p.nodes literal)[i]? = some q ∧ q.Shows d' := by
    have ⟨q, hq, hqc, hl⟩ := getElem?_nodes literal h hc (Draft.getElem?_operands hc hd)
    exact ⟨q, hq, by rw [Shows, hl, hqc]⟩
  cases d
  case text | passedData | options => contradiction
  case expression e => exact hn (e.loopBody?_toCode _)
  case each names container body =>
    have ⟨w, w', hp⟩ := nodes_each literal h
    rw [hp]
    match i with
    | 0 =>
      cases hd
      exact ⟨_, rfl, rfl⟩
    | 1 =>
      cases hd
      exact ⟨_, rfl, rfl⟩
    | _ + 2 => contradiction
  all_goals exact hn rfl

theorem Place.Shows.nodeAt? (literal : String → String) {d d' : Draft} {path : List Nat}
    (h : p.Shows d) (hd : d.at? path = some d') :
    ∃ q, p.nodeAt? literal path = some q ∧ q.Shows d' := by
  induction path generalizing p d
  case nil =>
    cases hd
    exact ⟨p, rfl, h⟩
  case cons i path hi =>
    have ⟨d₁, ho, hd⟩ := Option.bind_eq_some_iff.mp hd
    have ⟨q, hq, hs⟩ := h.operand literal ho
    have ⟨r, hr, hs⟩ := hi hs hd
    exact ⟨r, by simp [Place.nodeAt?, hq, hr], hs⟩

theorem Place.Sound.getElem?_names {x : String} {n : Nat} (h : p.Sound)
    (hs : p.Shows (.expression (.name x))) (hn : p.piece = .node (.slot n)) :
    p.writer.names[n]? = some x ∧ p.loops.findSome? (Loop.param? x) = some n := by
  have hi : Scope.slotIn? x (p.loops.map Loop.names) = some n :=
    Scope.slot?_eq_of_resolve (Piece.node.inj (hs.symm.trans hn))
  refine ⟨?_, findSome?_param? h.numbered ▸ hi⟩
  rw [h.names_eq, bound_eq, List.getElem?_map, Scope.getElem?_namesOf hi, Option.map_some]

theorem enter_mem_layout (literal : String → String) {buffer : Temp} {slot : Nat}
    {key value : String} {container body : Code} :
    .enter ⟨slot, key, value⟩ ∈ layout literal (.each buffer slot key value container body) := by
  simp [layout]

theorem names_writeTemps (temps : List Temp) (w : Writer) :
    (writeTemps temps w).names = w.names := by
  unfold writeTemps
  split <;> rfl

end Source

namespace Program

open Source

-- Where the body of the function of a program is written.
def place (program : Program) (name : Option String) : Place :=
  let w := (Writer.start.push ("function " ++ name.getD "" ++ "($data, $options) \x7b")).indent
  ⟨[], (writeTemps program.body.temps w).newline.push "return ", .node program.body⟩

variable {program : Program} {name : Option String} {literal : String → String} {q : Place}

theorem source_eq (hq : (program.place name).Holds literal q) :
    ∃ s, program.source literal name = (q.piece.write literal q.writer).code ++ s := by
  have ⟨s, hs⟩ := hq.code_eq
  have ⟨t, ht⟩ : ∃ t, program.source literal name =
      ((program.place name).piece.write literal (program.place name).writer).code ++ t := by
    simp [source, writeProgram, place, Piece.write, Writer.push, Writer.newline, Writer.dedent,
      String.append_assoc]
  exact ⟨s ++ t, by rw [ht, hs, String.append_assoc]⟩

theorem sound_place {defaults : LoopNames} {tree : List Node}
    (h : compile defaults tree = .ok program) : (program.place name).Sound where
  names_eq := names_writeTemps ..
  numbered := trivial
  fits := by
    have ⟨fs, hf, hb⟩ := Compile.exists_emitsAll h
    exact fun x hx => (Compile.scoped_assemble (hf.scoped rfl)).fits x (hb ▸ hx)

end Program

namespace Source

-- Wherever a node of a compiled template is written, its pieces are all that is written for it, and
-- it leaves the names as they were. The names of a loop are bound from its slot on, and a slot is
-- written as the key or the value of the loop around it that has the slot. For a name in the
-- template, that is the name itself, and it refers to the parameter of that slot.
theorem loop_names_resolve {defaults : LoopNames} {tree : List Node} {program : Program}
    (h : compile defaults tree = .ok program) (literal : String → String) (name : Option String) :
    (∀ q c, (program.place name).Holds literal q → q.piece = .node c →
      write literal c q.writer = writePieces literal ((q.inner literal).map (·.piece)) q.writer ∧
      (∃ s, program.source literal name = (write literal c q.writer).code ++ s) ∧
      (write literal c q.writer).names = q.writer.names ∧
      (∀ buffer slot key value container body,
        c = .each buffer slot key value container body →
        ∃ r ∈ q.inner literal, r.piece = .enter ⟨slot, key, value⟩ ∧ r.writer.mark = slot) ∧
      (∀ n, c = .slot n → ∃ l ∈ q.loops, n = l.slot + n % 2 ∧
        q.Writes literal n (if n % 2 = 0 then l.key else l.value))) ∧
    ∃ draft, Draft.ofTree defaults tree = some draft ∧
      ∀ path x, draft.at? path = some (.expression (.name x)) →
        ∃ q, (program.place name).nodeAt? literal path = some q ∧
          (program.place name).Holds literal q ∧ q.Shows (.expression (.name x)) ∧
          ∀ n, q.piece = .node (.slot n) →
            q.Writes literal n x ∧ q.loops.findSome? (Loop.param? x) = some n := by
  have hp : (program.place name).Sound := Program.sound_place h
  refine ⟨fun q c hq hc => ⟨?_, ?_, ?_, ?_, ?_⟩, ?_⟩
  case refine_1 => rw [write_eq, Place.inner, hc, map_places]
  case refine_2 =>
    have hs := Program.source_eq hq
    rwa [hc] at hs
  case refine_3 => exact (appends_write literal q.writer c).names_eq
  case refine_4 =>
    intro buffer slot key value container body he
    subst he
    obtain ⟨r, hr, he⟩ := Place.exists_inner hc (enter_mem_layout literal)
    obtain ⟨hn, _, hf⟩ := hp.holds (hq.inner hr)
    rw [he] at hf
    have hf : slot = 2 * r.loops.length := hf
    exact ⟨r, hr, he, by rw [Writer.mark, hn, length_bound, hf]⟩
  case refine_5 =>
    intro n hs
    obtain ⟨hn, hl, hf⟩ := hp.holds hq
    rw [hc, hs] at hf
    obtain ⟨l, hm, hs, hg⟩ := getElem?_bound hl (Piece.fits_node hf).1
    exact ⟨l, hm, hs, Place.writes_of_getElem? (hn ▸ hg)⟩
  case refine_6 =>
    obtain ⟨draft, hd, hb⟩ := compile_draft h
    refine ⟨draft, hd, fun path x hx => ?_⟩
    have hs : (program.place name).Shows draft := congrArg Piece.node hb.symm
    obtain ⟨q, hq, hs⟩ := hs.nodeAt? literal hx
    have hh := Place.Holds.self.nodeAt? hq
    refine ⟨q, hq, hh, hs, fun n hn => ?_⟩
    obtain ⟨hg, hf⟩ := (hp.holds hh).getElem?_names hs hn
    exact ⟨Place.writes_of_getElem? hg, hf⟩

theorem loop_names_resolve_shadowed :
    ∃ program q,
      compile .default [.tag "each" "(k, k) rows" [.tag "each" "cells" [.tag "=" "k" []]]] =
        .ok program ∧
      (program.place none).nodeAt? literal [1, 1, 1, 0] = some q ∧
      q.loops = [⟨2, "$index", "$value"⟩, ⟨0, "k", "k"⟩] ∧ q.piece = .node (.slot 1) ∧
      q.Writes literal 1 "k" ∧ q.loops.findSome? (Loop.param? "k") = some 1 := by
  have ⟨tree, ht⟩ : ∃ tree : List Node,
      tree = [.tag "each" "(k, k) rows" [.tag "each" "cells" [.tag "=" "k" []]]] := ⟨_, rfl⟩
  have hl : ((compile .default tree).toOption.bind fun program =>
      (program.place none).nodeAt? literal [1, 1, 1, 0]).map Place.loops =
        some [⟨2, "$index", "$value"⟩, ⟨0, "k", "k"⟩] := by
    subst ht
    decide +kernel
  have hx : (Draft.ofTree .default tree).bind (·.at? [1, 1, 1, 0]) =
      some (.expression (.name "k")) := by
    subst ht
    rfl
  cases h : compile .default tree
  case error => simp [h, Except.toOption] at hl
  case ok program =>
    have ⟨draft, hd, hn⟩ := (loop_names_resolve h literal none).2
    rw [hd, Option.bind_some] at hx
    have ⟨q, hq, _, hs, hn⟩ := hn _ _ hx
    have hl : q.loops = [⟨2, "$index", "$value"⟩, ⟨0, "k", "k"⟩] := by
      simpa [h, Except.toOption, hq] using hl
    have hp : q.piece = .node (.slot 1) := by
      rw [hs, hl]
      rfl
    exact ⟨program, q, ht ▸ h, hq, hl, hp, hn 1 hp⟩

end Source
end Stencil
