import Stencil.Proofs.Compiling.Outcome
import Stencil.Proofs.Scope

-- Where the slots and the temporaries of a compiled template stand.
namespace Stencil
namespace Code

mutual

-- The node and all nodes below it, each with the number of loop bodies around it. There are `d` of
-- them around the first one.
def nodesAt (d : Nat) : Code → List (Nat × Code)
  | c@(text _) | c@(literal _) | c@(slot _) | c@(ambient _) | c@data | c@options => [(d, c)]
  | c@(array items) => (d, c) :: nodesAllAt d items
  | c@(object entries) => (d, c) :: nodesEntriesAt d entries
  | c@(member o _) => (d, c) :: o.nodesAt d
  | c@(index o i) => (d, c) :: (o.nodesAt d ++ i.nodesAt d)
  | c@(call callee arguments) => (d, c) :: (callee.nodesAt d ++ nodesAllAt d arguments)
  | c@(unary _ operand) => (d, c) :: operand.nodesAt d
  | c@(binary _ lhs rhs) => (d, c) :: (lhs.nodesAt d ++ rhs.nodesAt d)
  | c@(cond test consequent alternate) =>
    (d, c) :: (test.nodesAt d ++ consequent.nodesAt d ++ alternate.nodesAt d)
  | c@(dethunk _ value) => (d, c) :: value.nodesAt d
  | c@(each _ _ _ _ container body) => (d, c) :: (container.nodesAt d ++ body.nodesAt (d + 1))
  | c@(invoke i o selector _) => (d, c) :: (i.nodesAt d ++ o.nodesAt d ++ selector.nodesAt d)
  | c@(merge sources) => (d, c) :: nodesAllAt d sources

def nodesAllAt (d : Nat) : List Code → List (Nat × Code)
  | [] => []
  | c :: cs => c.nodesAt d ++ nodesAllAt d cs

def nodesEntriesAt (d : Nat) : List (String × Code) → List (Nat × Code)
  | [] => []
  | (_, c) :: entries => c.nodesAt d ++ nodesEntriesAt d entries

end

mutual

theorem map_nodesAt (d : Nat) : (c : Code) → (c.nodesAt d).map (·.2) = c.nodes
  | text _ | literal _ | slot _ | ambient _ | data | options => rfl
  | array items => by simp [nodesAt, nodes, map_nodesAllAt d items]
  | object entries => by simp [nodesAt, nodes, map_nodesEntriesAt d entries]
  | member o _ => by simp [nodesAt, nodes, map_nodesAt d o]
  | index o i => by simp [nodesAt, nodes, map_nodesAt d o, map_nodesAt d i]
  | call callee arguments => by
    simp [nodesAt, nodes, map_nodesAt d callee, map_nodesAllAt d arguments]
  | unary _ operand => by simp [nodesAt, nodes, map_nodesAt d operand]
  | binary _ lhs rhs => by simp [nodesAt, nodes, map_nodesAt d lhs, map_nodesAt d rhs]
  | cond test consequent alternate => by
    simp [nodesAt, nodes, map_nodesAt d test, map_nodesAt d consequent, map_nodesAt d alternate]
  | dethunk _ value => by simp [nodesAt, nodes, map_nodesAt d value]
  | each _ _ _ _ container body => by
    simp [nodesAt, nodes, map_nodesAt d container, map_nodesAt (d + 1) body]
  | invoke i o selector _ => by
    simp [nodesAt, nodes, map_nodesAt d i, map_nodesAt d o, map_nodesAt d selector]
  | merge sources => by simp [nodesAt, nodes, map_nodesAllAt d sources]

theorem map_nodesAllAt (d : Nat) : (cs : List Code) →
    (nodesAllAt d cs).map (·.2) = nodesAll cs
  | [] => rfl
  | c :: cs => by simp [nodesAllAt, nodesAll, map_nodesAt d c, map_nodesAllAt d cs]

theorem map_nodesEntriesAt (d : Nat) : (entries : List (String × Code)) →
    (nodesEntriesAt d entries).map (·.2) = nodesEntries entries
  | [] => rfl
  | (_, c) :: entries => by
    simp [nodesEntriesAt, nodesEntries, map_nodesAt d c, map_nodesEntriesAt d entries]

end

-- What a node may refer to inside of `d` loop bodies. A loop has the two slots after those of the
-- loops around it.
def Fits (d : Nat) : Code → Prop
  | slot n => n < 2 * d
  | dethunk temp _ => temp = ⟨.value, d⟩
  | each buffer first _ _ _ _ => buffer = ⟨.buffer, d⟩ ∧ first = 2 * d
  | _ => True

-- What a loop renders in each of its rounds.
def loopBody? : Code → Option Code
  | each _ _ _ _ _ body => some body
  | _ => none

def deepest (ps : List (Nat × Code)) : Nat :=
  ps.foldr (fun p m => max p.1 m) 0

@[simp]
theorem deepest_nil : deepest [] = 0 :=
  rfl

@[simp]
theorem deepest_cons (p : Nat × Code) (ps : List (Nat × Code)) :
    deepest (p :: ps) = max p.1 (deepest ps) :=
  rfl

@[simp]
theorem deepest_append (ps qs : List (Nat × Code)) :
    deepest (ps ++ qs) = max (deepest ps) (deepest qs) := by
  induction ps
  case nil => simp
  case cons p ps hi => simp [hi, Nat.max_assoc]

theorem le_deepest_nodesAt (d : Nat) (c : Code) : d ≤ deepest (c.nodesAt d) := by
  cases c <;> simp only [nodesAt, deepest_cons] <;> exact Nat.le_max_left ..

-- Nodes inside of at least `d` loop bodies that fit where they are, and of at most `m`.
structure Scoped (d m : Nat) (ps : List (Nat × Code)) : Prop where
  fits : ∀ p ∈ ps, p.2.Fits p.1
  deepest_eq : max d (deepest ps) = m

namespace Scoped

variable {d m m' : Nat} {c : Code} {ps qs : List (Nat × Code)}

theorem le (h : Scoped d m ps) : d ≤ m :=
  h.deepest_eq ▸ Nat.le_max_left ..

theorem nil : Scoped d d [] :=
  ⟨by simp, by simp⟩

theorem cons (hc : c.Fits d) (h : Scoped d m ps) : Scoped d m ((d, c) :: ps) := by
  refine ⟨by simpa using ⟨hc, fun a b => h.fits (a, b)⟩, ?_⟩
  rw [deepest_cons, ←Nat.max_assoc, Nat.max_self, h.deepest_eq]

theorem append (h : Scoped d m ps) (h' : Scoped d m' qs) : Scoped d (max m m') (ps ++ qs) := by
  refine ⟨List.forall_mem_append.mpr ⟨h.fits, h'.fits⟩, ?_⟩
  rw [deepest_append, ←h.deepest_eq, ←h'.deepest_eq]
  omega

theorem of_append (h : Scoped d m (ps ++ qs)) :
    ∃ k k', Scoped d k ps ∧ Scoped d k' qs ∧ max k k' = m := by
  have ⟨hp, hq⟩ := List.forall_mem_append.mp h.fits
  refine ⟨_, _, ⟨hp, rfl⟩, ⟨hq, rfl⟩, ?_⟩
  rw [←h.deepest_eq, deepest_append]
  omega

theorem body (h : Scoped (d + 1) m (c.nodesAt (d + 1))) : Scoped d m (c.nodesAt (d + 1)) := by
  have hd := le_deepest_nodesAt (d + 1) c
  have hm := h.deepest_eq
  exact ⟨h.fits, by omega⟩

end Scoped

-- Nodes inside of `d` loop bodies that fit there and are no loops themselves.
def Flat (d : Nat) (ps : List (Nat × Code)) : Prop :=
  ∀ p ∈ ps, p.1 = d ∧ p.2.Fits d ∧ p.2.loopBody? = none

namespace Flat

variable {d : Nat} {c : Code} {ps qs : List (Nat × Code)}

theorem nil : Flat d [] :=
  nofun

theorem cons (hc : c.Fits d) (hb : c.loopBody? = none) (h : Flat d ps) : Flat d ((d, c) :: ps) :=
  List.forall_mem_cons.mpr ⟨⟨rfl, hc, hb⟩, h⟩

theorem append (h : Flat d ps) (h' : Flat d qs) : Flat d (ps ++ qs) :=
  List.forall_mem_append.mpr ⟨h, h'⟩

end Flat

theorem Flat.scoped {d : Nat} {ps : List (Nat × Code)} (h : Flat d ps) : Scoped d d ps := by
  refine ⟨fun p hp => (h p hp).1 ▸ (h p hp).2.1, Nat.max_eq_left ?_⟩
  induction ps
  case nil => exact Nat.zero_le d
  case cons p ps hi =>
    have ⟨hp, hs⟩ := List.forall_mem_cons.mp h
    exact Nat.max_le.mpr ⟨hp.1 ▸ Nat.le_refl _, hi hs⟩

end Code

theorem Scope.slotIn?_lt {x : String} {n : Nat} {loops : List LoopNames}
    (h : slotIn? x loops = some n) : n < 2 * loops.length := by
  induction loops <;> simp only [slotIn?, reduceCtorEq] at h
  case cons names loops hi =>
    simp only [List.length_cons]
    split at h
    case isTrue => cases h; omega
    case isFalse =>
      split at h
      case isTrue => cases h; omega
      case isFalse =>
        have := hi h
        omega

-- The code of an expression has no loops in it, so all of its nodes are where it is itself.
mutual

theorem Expr.flat_toCode (s : Scope) : (e : Expr) →
    Code.Flat s.loops.length ((e.toCode s).nodesAt s.loops.length)
  | .literal _ => .cons trivial rfl .nil
  | .name x => by
    simp only [toCode, Scope.resolve]
    split
    case h_1 hn => exact .cons (Scope.slotIn?_lt hn) rfl .nil
    case h_2 =>
      split
      case isTrue => exact .cons trivial rfl .nil
      case isFalse => split <;> exact .cons trivial rfl .nil
  | .array items => .cons trivial rfl (Expr.flat_listToCode s items)
  | .object entries => .cons trivial rfl (Expr.flat_entriesToCode s entries)
  | .member o _ => .cons trivial rfl (o.flat_toCode s)
  | .index o i => .cons trivial rfl ((o.flat_toCode s).append (i.flat_toCode s))
  | .call callee arguments =>
    .cons trivial rfl ((callee.flat_toCode s).append (Expr.flat_listToCode s arguments))
  | .unary _ operand => .cons trivial rfl (operand.flat_toCode s)
  | .binary _ lhs rhs => .cons trivial rfl ((lhs.flat_toCode s).append (rhs.flat_toCode s))
  | .cond test consequent alternate =>
    .cons trivial rfl
      (((test.flat_toCode s).append (consequent.flat_toCode s)).append (alternate.flat_toCode s))

theorem Expr.flat_listToCode (s : Scope) : (es : List Expr) →
    Code.Flat s.loops.length (Code.nodesAllAt s.loops.length (Expr.listToCode s es))
  | [] => .nil
  | e :: es => (e.flat_toCode s).append (Expr.flat_listToCode s es)

theorem Expr.flat_entriesToCode (s : Scope) : (entries : List (String × Expr)) →
    Code.Flat s.loops.length (Code.nodesEntriesAt s.loops.length (Expr.entriesToCode s entries))
  | [] => .nil
  | (_, e) :: entries => (e.flat_toCode s).append (Expr.flat_entriesToCode s entries)

end

namespace Compile

open Code

variable {d k m : Nat} {c c' : Code} {fs : List Fragment} {s : Scope}

theorem scoped_concat (h : Scoped d m (c.nodesAt d)) (h' : Scoped d k (c'.nodesAt d)) :
    Scoped d (max m k) ((concat c c').nodesAt d) :=
  .cons trivial (h.append h')

theorem scoped_join (h : Scoped d m (c.nodesAt d)) (h' : Scoped d k (c'.nodesAt d)) :
    Scoped d (max m k) ((join c c').nodesAt d) := by
  unfold join
  split
  case h_2 => exact scoped_concat h h'
  case h_1 =>
    have hm := h.deepest_eq
    have hk := h'.deepest_eq
    simp only [nodesAt, deepest_cons, deepest_nil] at hm hk
    refine ⟨by simp [nodesAt, Fits], ?_⟩
    simp only [nodesAt, deepest_cons, deepest_nil]
    omega

theorem scoped_assembleFrom {p : Bool} (h : Scoped d m (c.nodesAt d)) (hp : p = false → m = d)
    (hf : Scoped d k (fs.flatMap (·.code.nodesAt d))) :
    Scoped d (max m k) ((assembleFrom p c fs).nodesAt d) := by
  induction fs generalizing p c m k
  case nil =>
    have hk := hf.deepest_eq
    have := h.le
    simp only [List.flatMap_nil, deepest_nil, Nat.max_zero] at hk
    rwa [←hk, Nat.max_eq_left this]
  case cons f fs hi =>
    have ⟨k₁, k₂, h₁, h₂, hk⟩ := hf.of_append
    have ha : Scoped d (max m k₁) ((f.after p c).nodesAt d) := by
      unfold Fragment.after
      split
      case isTrue => exact scoped_join h h₁
      case isFalse hp' =>
        rw [hp (by simpa using hp')]
        split
        case h_1 => rwa [Nat.max_eq_right h₁.le]
        case h_2 => exact scoped_concat (.cons trivial .nil) h₁
    rw [←hk, ←Nat.max_assoc]
    exact hi ha nofun h₂

theorem scoped_assemble (hf : Scoped d k (fs.flatMap (·.code.nodesAt d))) :
    Scoped d k ((assemble fs).nodesAt d) := by
  have h : Scoped d (max d k) ((assemble fs).nodesAt d) :=
    scoped_assembleFrom (.cons trivial .nil) (fun _ => rfl) hf
  rwa [Nat.max_eq_right hf.le] at h

section

variable {cs : List Char}

theorem Spells.flat (h : Spells s cs c) (hs : s.loops.length = d) : Flat d (c.nodesAt d) := by
  have ⟨e, _, hc⟩ := h
  exact hc ▸ hs ▸ e.flat_toCode s

theorem Passes.flat {pieces : List (List Char)} (hs : s.loops.length = d)
    (h : Passes s c pieces c') (hc : Flat d (c.nodesAt d)) : Flat d (c'.nodesAt d) := by
  induction h
  case nil => exact hc
  case cons hp _ hi => exact hi (.cons trivial rfl ((hp.flat hs).append (hc.append .nil)))

theorem Substitutes.flat (hs : s.loops.length = s.depth) (h : Substitutes s cs c) :
    Flat s.depth (c.nodesAt s.depth) := by
  have ⟨_, hv, hp⟩ := h
  exact hp.flat hs (.cons rfl rfl (hv.flat hs))

theorem flat_slots (names : List (String × Nat)) (h : ∀ p ∈ names, p.2 < 2 * d) :
    Flat d (nodesEntriesAt d (names.map fun (name, n) => (name, .slot n))) := by
  induction names
  case nil => exact .nil
  case cons p names hi =>
    have ⟨hp, hn⟩ := List.forall_mem_cons.mp h
    exact .cons hp rfl (hi hn)

theorem flat_passedData (s : Scope) :
    Flat s.loops.length ((passedData s).nodesAt s.loops.length) := by
  unfold passedData
  split
  case isTrue => exact .cons trivial rfl .nil
  case isFalse =>
    have h := flat_slots s.names fun p hp => Scope.lt_of_mem_namesOf hp
    exact .cons trivial rfl (.cons trivial rfl (.cons trivial rfl (h.append .nil)))

theorem Supplies.flat {given : Option (List Char)} (hs : s.loops.length = d)
    (h : Supplies s c given c') (hc : Flat d (c.nodesAt d)) : Flat d (c'.nodesAt d) := by
  cases given
  case none => exact h ▸ hc
  case some => exact Spells.flat h hs

theorem Invokes.flat (hs : s.loops.length = d) (h : Invokes s cs c) : Flat d (c.nodesAt d) := by
  have ⟨_, hd, ho, hn⟩ := h
  have hd := hd.flat hs (hs ▸ flat_passedData s)
  have ho := ho.flat hs (.cons trivial rfl .nil)
  exact .cons trivial rfl ((hd.append ho).append (hn.flat hs))

end

theorem Distinguishes.scoped_choose {cs : List Char} {isLast : Bool} {test : Option Code}
    {body : Code} {arms : List Arm} (hs : s.loops.length = d) (h : Distinguishes s cs isLast test)
    (ha : isLast = true → arms = []) (hb : Scoped d m (body.nodesAt d))
    (hc : Scoped d k ((choose arms).nodesAt d)) :
    Scoped d (max m k) ((choose (⟨test, body⟩ :: arms)).nodesAt d) := by
  cases h
  case condition ht =>
    have h := ((ht.flat hs).scoped.append hb).append hc
    rw [Nat.max_eq_right hb.le] at h
    exact .cons trivial h
  case always _ hl =>
    have hk := hc.deepest_eq
    have := hb.le
    simp only [ha hl, choose, Code.empty, nodesAt, deepest_cons, deepest_nil] at hk
    rwa [show max m k = m by omega]

-- The induction is on the derivation of the code. It is about the deepest loop as well, which is
-- what the depth that a compilation reaches is compared to.
mutual

theorem Emits.scoped {defaults s n f} (hs : s.loops.length = s.depth) : Emits defaults s n f →
    Scoped s.depth (max s.depth (n.reach s.depth)) (f.code.nodesAt s.depth)
  | .text => by
    rw [Node.reach, Nat.max_zero]
    exact .cons trivial .nil
  | .substitution h => by simpa [Node.reach, Fragment.code] using (h.flat hs).scoped
  | .invocation h => by simpa [Node.reach, Fragment.code] using (h.flat hs).scoped
  | .conditional _ ht hb => by
    have ⟨m, k, hf, ha, hm⟩ := hb.scoped hs
    have h := ((ht.flat hs).scoped.append (scoped_assemble hf)).append ha
    rw [Nat.max_eq_right hf.le, hm] at h
    simp only [Node.reach, Fragment.code, String.reduceEq, if_false, if_true, true_or]
    exact .cons trivial h
  | .loop _ hc hb => by
    have hl : s.slotCount = 2 * s.depth := congrArg (2 * ·) hs
    have h := (hc.flat hs).scoped.append (scoped_assemble (hb.scoped (congrArg (· + 1) hs))).body
    simp only [Node.reach, if_true]
    exact .cons ⟨rfl, hl⟩ h

theorem EmitsAll.scoped {defaults s ns fs} (hs : s.loops.length = s.depth) :
    EmitsAll defaults s ns fs → Scoped s.depth (max s.depth (Node.reachAll s.depth ns))
      (fs.flatMap (·.code.nodesAt s.depth))
  | .nil => by
    rw [Node.reachAll, Nat.max_zero]
    exact .nil
  | .cons h hf => by
    have h := (h.scoped hs).append (hf.scoped hs)
    have hm (a b : Nat) : max (max s.depth a) (max s.depth b) = max s.depth (max a b) := by omega
    rwa [hm] at h

theorem EmitsBranches.scoped {defaults s ns fs arms} (hs : s.loops.length = s.depth) :
    EmitsBranches defaults s ns fs arms →
    ∃ m k, Scoped s.depth m (fs.flatMap (·.code.nodesAt s.depth)) ∧
      Scoped s.depth k ((choose arms).nodesAt s.depth) ∧
      max m k = max s.depth (Node.reachAll s.depth ns)
  | .nil => ⟨_, _, .nil, .cons trivial .nil, by simp [Node.reachAll]⟩
  | .sibling _ h hb => by
    have ⟨m, k, hf, ha, hm⟩ := hb.scoped hs
    refine ⟨_, k, (h.scoped hs).append hf, ha, ?_⟩
    simp only [Node.reachAll]
    omega
  | .otherwise ht hg hb => by
    have ⟨m, k, hf, ha, hm⟩ := hb.scoped hs
    have hl (h : (!_) = true) := hb.arms_eq_nil (Bool.not_eq_true' _ ▸ h)
    have hg := (hg.scoped hs).append hf
    rw [←List.flatMap_append] at hg
    refine ⟨_, _, .nil, ht.scoped_choose hs hl (scoped_assemble hg) ha, ?_⟩
    simp only [Node.reachAll, Node.reach, String.reduceEq, if_false, if_true, or_true]
    omega

end

theorem Runs.leaves {α : Type} {p q : Bool} {x : Compile α} {r : Except CompileError α}
    {context : Context} (h : Runs s k p x r q) (hc : context.Within s) (hp : context.pending = p) :
    Leaves s k r q context (x context).2 := by
  have ⟨_, hx, hl⟩ := h context hc hp
  exact hx ▸ hl

end Compile

theorem scoped_of_compile {defaults : LoopNames} {tree : List Node} {program : Program}
    (h : compile defaults tree = .ok program) :
    Code.Scoped 0 program.maxDepth (program.body.nodesAt 0) := by
  obtain ⟨r, ho, hr⟩ := Compile.collects_nodes defaults .empty tree
  obtain ⟨c, hc, hl⟩ := (hr false .empty).group ⟨.empty, false⟩ ⟨rfl, rfl⟩ rfl
  simp only [compile, hc] at h
  cases ho <;> simp only [Except.map, reduceCtorEq, Except.ok.injEq] at h
  case ok fs _ hf =>
    subst h
    have hs := Compile.scoped_assemble (hf.scoped rfl)
    exact ⟨hs.fits, hs.deepest_eq.trans (hl.maxDepth_eq rfl).symm⟩

-- The nodes of a compiled template fit where they are, and its depth is that of the innermost loop.
-- A group leaves the scope that it is compiled in as it was, also if it fails.
theorem compile_scoped :
    (∀ defaults tree program, compile defaults tree = .ok program →
      (∀ p ∈ program.body.nodesAt 0, p.2.Fits p.1) ∧
      program.maxDepth = Code.deepest (program.body.nodesAt 0)) ∧
    ∀ defaults ns (context : Compile.Context),
      let left := (Compile.group (Compile.nodes defaults ns .empty) context).2
      left.scope.loops = context.scope.loops ∧ left.scope.depth = context.scope.depth ∧
      left.pending = context.pending ∧ context.scope.maxDepth ≤ left.scope.maxDepth := by
  refine ⟨fun defaults tree program h => ?_, fun defaults ns context => ?_⟩
  case refine_1 =>
    have hs := scoped_of_compile h
    exact ⟨hs.fits, hs.deepest_eq.symm.trans (Nat.zero_max _)⟩
  case refine_2 =>
    have ⟨r, _, hr⟩ := Compile.collects_nodes defaults context.scope ns
    have hl := (hr false .empty).group.leaves ⟨rfl, rfl⟩ rfl
    exact ⟨hl.within.loops_eq, hl.within.depth_eq, rfl, hl.mono⟩

theorem compile_scoped_nested :
    ∃ program,
      compile .default [.tag "each" "(k, v) xs"
        [.tag "each" "v" [.tag "=" "k + $value" [], .tag "tmpl" "part" []], .text "a"]] =
          .ok program ∧
      (∀ p ∈ program.body.nodesAt 0, p.2.Fits p.1) ∧
      program.maxDepth = 2 ∧ Code.deepest (program.body.nodesAt 0) = 2 := by
  obtain ⟨tree, ht⟩ : ∃ tree : List Node, tree = [.tag "each" "(k, v) xs"
      [.tag "each" "v" [.tag "=" "k + $value" [], .tag "tmpl" "part" []], .text "a"]] := ⟨_, rfl⟩
  have hk : (compile .default tree).toOption.map Program.maxDepth = some 2 := by
    subst ht
    decide +kernel
  cases h : compile .default tree
  case error => simp [h, Except.toOption] at hk
  case ok program =>
    obtain ⟨hf, hm⟩ := compile_scoped.1 _ _ _ h
    have hk : program.maxDepth = 2 := by simpa [h, Except.toOption] using hk
    exact ⟨program, ht ▸ h, hf, hk, hm ▸ hk⟩

end Stencil
