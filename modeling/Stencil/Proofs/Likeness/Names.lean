import Stencil.Proofs.Compiling.Outcome
import Stencil.Proofs.Likeness.Eval
import Stencil.Render.Native
import Stencil.Render.Template

-- What the output of a template that calls no other template depends on.
namespace Stencil
namespace Node

mutual

-- Whether a directive of the kind is in a node, at any depth.
def has (kind : String) : Node → Bool
  | text _ => false
  | tag k _ children => k == kind || hasAny kind children

def hasAny (kind : String) : List Node → Bool
  | [] => false
  | n :: ns => n.has kind || hasAny kind ns

end

theorem hasAny_children {kind k content : String} {children : List Node}
    (h : (tag k content children).has kind = false) : hasAny kind children = false :=
  (Bool.or_eq_false_iff.mp h).2

end Node

namespace Code

-- A node that has nothing to do with other templates. The literals of a template are primitive.
def IsDirect : Code → Prop
  | literal v => v.isCompound = false
  | invoke _ _ _ _ | merge _ => False
  | _ => True

-- The data or the options as a whole.
def isInput : Code → Bool
  | data | options => true
  | _ => false

def name? : Code → Option String
  | ambient name => some name
  | _ => none

-- The names that a code looks up.
def names (c : Code) : List String :=
  c.nodes.filterMap name?

theorem IsDirect.confined {N : String → Prop} : {c : Code} → c.IsDirect → c.isInput = false →
    (∀ x, c.name? = some x → N x) → c.Confined N
  | literal _, h, _, _ => h
  | ambient x, _, _, hn => hn x rfl
  | text _, _, _, _ | slot _, _, _, _ | array _, _, _, _ | object _, _, _, _
  | member _ _, _, _, _ | index _ _, _, _, _ | call _ _, _, _, _ | unary _ _, _, _, _
  | binary _ _ _, _, _, _ | cond _ _ _, _, _, _ | dethunk _ _, _, _, _
  | each _ _ _ _ _ _, _, _, _ => trivial

def Direct (cs : List Code) : Prop :=
  ∀ c ∈ cs, c.IsDirect

namespace Direct

variable {c : Code} {cs cs' : List Code}

theorem nil : Direct [] :=
  nofun

theorem cons (hc : c.IsDirect) (h : Direct cs) : Direct (c :: cs) :=
  List.forall_mem_cons.mpr ⟨hc, h⟩

theorem append (h : Direct cs) (h' : Direct cs') : Direct (cs ++ cs') :=
  List.forall_mem_append.mpr ⟨h, h'⟩

end Direct
end Code

namespace Expr

open Code

theorem isDirect_resolve (s : Scope) (x : String) : Direct (s.resolve x).nodes := by
  simp only [Scope.resolve]
  split
  case h_1 => exact .cons trivial .nil
  case h_2 =>
    split
    case isTrue => exact .cons trivial .nil
    case isFalse => split <;> exact .cons trivial .nil

mutual

theorem direct_toCode (s : Scope) : (e : Expr) → Direct (e.toCode s).nodes
  | .literal l => .cons (by cases l <;> rfl) .nil
  | .name x => isDirect_resolve s x
  | .array items => .cons trivial (direct_listToCode s items)
  | .object entries => .cons trivial (direct_entriesToCode s entries)
  | .member o _ => .cons trivial (direct_toCode s o)
  | .index o i => .cons trivial ((direct_toCode s o).append (direct_toCode s i))
  | .call callee arguments =>
    .cons trivial ((direct_toCode s callee).append (direct_listToCode s arguments))
  | .unary _ operand => .cons trivial (direct_toCode s operand)
  | .binary _ lhs rhs => .cons trivial ((direct_toCode s lhs).append (direct_toCode s rhs))
  | .cond test consequent alternate =>
    .cons trivial
      (((direct_toCode s test).append (direct_toCode s consequent)).append
        (direct_toCode s alternate))

theorem direct_listToCode (s : Scope) : (es : List Expr) →
    Direct (Code.nodesAll (listToCode s es))
  | [] => .nil
  | e :: es => (direct_toCode s e).append (direct_listToCode s es)

theorem direct_entriesToCode (s : Scope) : (entries : List (String × Expr)) →
    Direct (Code.nodesEntries (entriesToCode s entries))
  | [] => .nil
  | (_, e) :: entries => (direct_toCode s e).append (direct_entriesToCode s entries)

end
end Expr

namespace Compile

open Code

variable {s : Scope} {c c' : Code} {cs : List Char} {fs : List Fragment}

theorem direct_join (h : Direct c.nodes) (h' : Direct c'.nodes) : Direct (join c c').nodes := by
  unfold join
  split
  case h_1 => exact .cons trivial .nil
  case h_2 => exact .cons trivial (h.append h')

theorem direct_assembleFrom {pending : Bool} (h : Direct c.nodes)
    (hf : Direct (fs.flatMap (·.code.nodes))) : Direct (assembleFrom pending c fs).nodes := by
  induction fs generalizing pending c
  case nil => exact h
  case cons f fs hi =>
    have ⟨hf, hs⟩ := List.forall_mem_append.mp hf
    refine hi ?_ hs
    unfold Fragment.after
    split
    case isTrue => exact direct_join h hf
    case isFalse =>
      split
      case h_1 => exact hf
      case h_2 => exact .cons trivial (Direct.append (.cons trivial .nil) hf)

theorem direct_assemble (hf : Direct (fs.flatMap (·.code.nodes))) : Direct (assemble fs).nodes :=
  direct_assembleFrom (.cons trivial .nil) hf

theorem Spells.direct (h : Spells s cs c) : Direct c.nodes := by
  have ⟨e, _, hc⟩ := h
  exact hc ▸ e.direct_toCode s

theorem Passes.direct {pieces : List (List Char)} (h : Passes s c pieces c')
    (hc : Direct c.nodes) : Direct c'.nodes := by
  induction h
  case nil => exact hc
  case cons hp _ hi => exact hi (.cons trivial (hp.direct.append (hc.append .nil)))

theorem Substitutes.direct (h : Substitutes s cs c) : Direct c.nodes := by
  have ⟨_, hv, hp⟩ := h
  exact hp.direct (.cons trivial hv.direct)

theorem Distinguishes.direct_choose {isLast : Bool} {test : Option Code} {arms : List Arm}
    (h : Distinguishes s cs isLast test) (hc : Direct c.nodes) (ha : Direct (choose arms).nodes) :
    Direct (choose (⟨test, c⟩ :: arms)).nodes := by
  cases h
  case condition ht => exact .cons trivial ((ht.direct.append hc).append ha)
  case always => exact hc

-- The induction is on the derivation of the code.
mutual

theorem Emits.direct {defaults s n f} (hn : n.has "tmpl" = false) :
    Emits defaults s n f → Direct f.code.nodes
  | .text => .cons trivial .nil
  | .substitution h => h.direct
  | .invocation _ => by simp [Node.has] at hn
  | .conditional _ ht hb => by
    have ⟨hf, ha⟩ := hb.direct (Node.hasAny_children hn)
    exact .cons trivial ((ht.direct.append (direct_assemble hf)).append ha)
  | .loop _ hc hb => by
    have hf := hb.direct (Node.hasAny_children hn)
    exact .cons trivial (hc.direct.append (direct_assemble hf))

theorem EmitsAll.direct {defaults s ns fs} (hn : Node.hasAny "tmpl" ns = false) :
    EmitsAll defaults s ns fs → Direct (fs.flatMap (·.code.nodes))
  | .nil => .nil
  | .cons h hf => by
    have ⟨hn, hs⟩ := Bool.or_eq_false_iff.mp hn
    exact (h.direct hn).append (hf.direct hs)

theorem EmitsBranches.direct {defaults s ns fs arms} (hn : Node.hasAny "tmpl" ns = false) :
    EmitsBranches defaults s ns fs arms →
    Direct (fs.flatMap (·.code.nodes)) ∧ Direct (choose arms).nodes
  | .nil => ⟨.nil, .cons trivial .nil⟩
  | .sibling _ h hb => by
    have ⟨hn, hs⟩ := Bool.or_eq_false_iff.mp hn
    have ⟨hf, ha⟩ := hb.direct hs
    exact ⟨(h.direct hn).append hf, ha⟩
  | .otherwise ht hg hb => by
    have ⟨hn, hs⟩ := Bool.or_eq_false_iff.mp hn
    have ⟨hf, ha⟩ := hb.direct hs
    have hg := (hg.direct (Node.hasAny_children hn)).append hf
    rw [←List.flatMap_append] at hg
    exact ⟨.nil, ht.direct_choose (direct_assemble hg) ha⟩

end
end Compile

theorem direct_of_compile {defaults : LoopNames} {tree : List Node} {program : Program}
    (h : compile defaults tree = .ok program) (ht : Node.hasAny "tmpl" tree = false) :
    Code.Direct program.body.nodes := by
  have ⟨r, ho, hr⟩ := Compile.collects_nodes defaults .empty tree
  have ⟨c, hc, _⟩ := (hr false .empty).group ⟨.empty, false⟩ ⟨rfl, rfl⟩ rfl
  simp only [compile, hc] at h
  cases ho <;> simp only [Except.map, reduceCtorEq, Except.ok.injEq] at h
  case ok hf _ =>
    subst h
    exact Compile.direct_assemble (hf.direct ht)

namespace Eval.Coupling

open Value

variable {σ : Type} {host : Host σ}

-- Two runs from one store, with the same identities.
def same (host : Host σ)
    (h : ∀ v, v.isStatic = true → ∀ p ∈ host.pairs v, p.1.isStatic = true ∧ p.2.isStatic = true) :
    Coupling host where
  holds R s t := R = Eq ∧ s = t
  oneOne := by
    rintro _ s t ⟨rfl, _⟩ i i' _ _ rfl rfl
    exact Iff.rfl
  fresh := by
    rintro _ s _ ⟨rfl, rfl⟩
    exact ⟨Eq, .refl, rfl, rfl, rfl⟩
  pairs := by
    rintro _ s t v w ⟨rfl, _⟩ hv
    have ⟨he, hs⟩ := hv.eq
    exact he ▸ likePairs_self (h v hs)

-- Two runs from stores with different identities. Those that are made have never been there.
def numbered {bound : σ → Nat}
    (hb : ∀ s, bound s ≤ (host.fresh s).1 ∧ (host.fresh s).1 < bound (host.fresh s).2)
    (hp : ∀ R v w, Like R v w → LikePairs R (host.pairs v) (host.pairs w)) : Coupling host where
  holds R s t := OneOne R ∧ ∀ i j, R i j → i < bound s ∧ j < bound t
  oneOne h := h.1
  fresh := by
    intro R s t ⟨hR, hi⟩
    have ⟨hs, hs'⟩ := hb s
    have ⟨ht, ht'⟩ := hb t
    refine ⟨fun i j => R i j ∨ i = (host.fresh s).1 ∧ j = (host.fresh t).1, fun _ _ => .inl,
      .inr ⟨rfl, rfl⟩, ?_, ?_⟩
    case refine_1 =>
      rintro i i' j j' (h | h) (h' | h')
      case inl.inl => exact hR h h'
      case inl.inr => have := hi i j h; omega
      case inr.inl => have := hi i' j' h'; omega
      case inr.inr => omega
    case refine_2 =>
      rintro i j (h | h)
      case inl => have := hi i j h; omega
      case inr => omega
  pairs _ h := hp _ _ _ h

end Eval.Coupling

theorem Code.Direct.confined {c : Code} (h : Direct c.nodes)
    (hi : ∀ d ∈ c.nodes, d.isInput = false) : ∀ d ∈ c.nodes, d.Confined (· ∈ c.names) :=
  fun d hd => (h d hd).confined (hi d hd) fun _ hx => List.mem_filterMap.mpr ⟨d, hd, hx⟩

namespace Value

variable {v data options : Value}

theorem haveStatic_fieldList (h : v.isStatic = true) : haveStatic v.fieldList = true := by
  cases v
  case object => exact h
  all_goals rfl

theorem isStatic_lookup (hd : data.isStatic = true) (ho : options.isStatic = true) (x : String) :
    (Input.lookup ⟨data, options⟩ x).isStatic = true := by
  rw [Input.lookup_eq]
  cases h : Fields.get? data.fieldList x
  case some => exact isStatic_get? (haveStatic_fieldList hd) h
  case none =>
    cases h : Fields.get? options.fieldList x
    case some => exact isStatic_get? (haveStatic_fieldList ho) h
    case none => rfl

theorem isStatic_pairs (h : v.isStatic = true) :
    ∀ p ∈ v.pairs, p.1.isStatic = true ∧ p.2.isStatic = true :=
  (like_self v h).pairs.isStatic

end Value

open Value in
-- A template that calls no other template and takes neither its data nor its options as a whole
-- gives the same for two inputs in which it finds the same under its names, if there are no
-- functions in the one. What it finds may also differ in identities, as long as the same ones are
-- the same on both sides, and so may the stores.
theorem names_determine_output {σ : Type} (host : Host σ) {defaults : LoopNames} {tree : List Node}
    {p : Program} (hp : compile defaults tree = .ok p) (ht : Node.hasAny "tmpl" tree = false)
    (hi : ∀ c ∈ p.body.nodes, c.isInput = false) (data options data' options' : Value) :
    ((∀ v, v.isStatic = true →
        ∀ q ∈ host.pairs v, q.1.isStatic = true ∧ q.2.isStatic = true) →
      data.isStatic = true → options.isStatic = true →
      (∀ x ∈ p.body.names,
        Input.lookup ⟨data, options⟩ x = Input.lookup ⟨data', options'⟩ x) →
      ∀ s, p.apply host data options s = p.apply host data' options' s) ∧
    ∀ (bound : σ → Nat) (R : Nat → Nat → Prop) (s t : σ),
      (∀ s, bound s ≤ (host.fresh s).1 ∧ (host.fresh s).1 < bound (host.fresh s).2) →
      (∀ R v w, Like R v w → LikePairs R (host.pairs v) (host.pairs w)) →
      OneOne R → (∀ i j, R i j → i < bound s ∧ j < bound t) →
      (∀ x ∈ p.body.names,
        Like R (Input.lookup ⟨data, options⟩ x) (Input.lookup ⟨data', options'⟩ x)) →
      (p.apply host data options s).1 = (p.apply host data' options' t).1 := by
  have hc := (direct_of_compile hp ht).confined hi
  refine ⟨fun hs hd ho hn s => ?_, fun bound R s t hb hl hR hi hn => ?_⟩
  case refine_1 =>
    have hn' : ∀ x ∈ p.body.names,
        Like Eq (Input.lookup ⟨data, options⟩ x) (Input.lookup ⟨data', options'⟩ x) := by
      intro x hx
      rw [←hn x hx]
      exact like_self _ (isStatic_lookup hd ho x)
    have ⟨hr, _, _, hs⟩ := Program.apply_coupled (.same host hs) hc (s := s) ⟨rfl, rfl⟩ hn'
    exact Prod.ext hr hs
  case refine_2 =>
    exact (Program.apply_coupled (.numbered hb hl) hc ⟨hR, hi⟩ hn).1

-- The names are in other places and beside others, and the second time under other identities.
theorem names_determine_output_loop :
    let tree : List Node := [.tag "each" "(k, v) xs" [.tag "=" "v === y ? [k, z] : v" []]]
    let xs : Value := .array 1 [.array 2 [.null], .array 3 []]
    let xs' : Value := .array 5 [.array 6 [.null], .array 4 []]
    let host := Template.host Store.services .empty 1
    ∃ p, compile .default tree = .ok p ∧ p.body.names = ["xs", "y", "z"] ∧
      (∀ s, p.apply host (.object 0 [("y", .array 3 []), ("xs", xs)])
          (.object 9 [("z", .bool true), ("y", .null)]) s =
        p.apply host (.object 8 [("xs", xs), ("z", .bool true), ("w", .null)])
          (.object 7 [("y", .array 3 [])]) s) ∧
      (p.apply host (.object 0 [("y", .array 3 []), ("xs", xs)])
          (.object 9 [("z", .bool true), ("y", .null)]) { Store.start with next := 10 }).1 =
        (p.apply host (.object 0 [("xs", xs'), ("z", .bool true), ("w", .null)])
          (.object 3 [("y", .array 4 [])]) { Store.start with next := 7 }).1 := by
  intro tree xs xs' host
  have hk : ((compile .default tree).toOption.map fun p =>
      (p.body.names, p.body.nodes.all (!·.isInput))) = some (["xs", "y", "z"], true) := by
    decide +kernel
  cases h : compile .default tree
  case error => simp [h, Except.toOption] at hk
  case ok p =>
    simp only [h, Except.toOption, Option.map_some, Option.some.injEq, Prod.mk.injEq,
      List.all_eq_true, Bool.not_eq_true'] at hk
    have hn := names_determine_output host h rfl hk.2
    refine ⟨p, rfl, hk.1, (hn _ _ _ _).1 (fun _ => Value.isStatic_pairs) rfl rfl ?_,
      (hn _ _ _ _).2 Store.next (fun i j => (i, j) ∈ [(1, 5), (2, 6), (3, 4)]) _ _ ?_ ?_ ?_ ?_ ?_⟩
    case refine_1 =>
      rw [hk.1, List.forall_mem_cons, List.forall_mem_cons, List.forall_mem_cons]
      exact ⟨rfl, rfl, rfl, List.forall_mem_nil _⟩
    case refine_2 => exact fun s => ⟨Nat.le_refl _, Nat.lt_succ_self _⟩
    case refine_3 => exact fun _ _ _ h => h.pairs
    case refine_4 =>
      intro i i' j j' hi hj
      simp only [List.mem_cons, Prod.mk.injEq, List.not_mem_nil, or_false] at hi hj
      omega
    case refine_5 =>
      intro i j hi
      simp only [List.mem_cons, Prod.mk.injEq, List.not_mem_nil, or_false] at hi
      show i < 10 ∧ j < 7
      omega
    case refine_6 =>
      rw [hk.1, List.forall_mem_cons, List.forall_mem_cons, List.forall_mem_cons]
      refine ⟨.array (by decide) (.cons (.array (by decide) ?_) (.cons ?_ .nil)), ?_,
        .primitive rfl, List.forall_mem_nil _⟩
      case refine_1 => exact .cons (.primitive rfl) .nil
      all_goals exact .array (by decide) .nil

end Stencil
