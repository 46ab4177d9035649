import Stencil.Proofs.Compiling.Outcome
import Stencil.Proofs.Splitting.Spaced

-- A chain of branches compiles to the same code as conditionals inside of one another.
namespace Stencil
namespace IfHeader

variable {content condition : List Char}

theorem trim_of_condition? (h : condition? content = some condition) :
    condition = trim content := by
  unfold condition? at h
  split at h
  case h_1 => cases h
  case h_2 => exact (Option.some.inj h).symm

-- A condition that has been read from the content of a directive is one as it stands.
theorem condition?_of_condition? (h : condition? content = some condition) :
    condition? condition = some condition := by
  have ht := trim_of_condition? h
  subst ht
  unfold condition? at h ⊢
  rwa [trim_trim]

theorem condition?_of_elseCondition? (h : elseCondition? content = some condition) :
    condition? condition = some condition := by
  unfold elseCondition? at h
  split at h
  case h_1 => split at h <;> exact condition?_of_condition? h
  case h_2 => exact condition?_of_condition? h

end IfHeader

namespace Node

theorem reachAll_append (depth : Nat) (ns ns' : List Node) :
    reachAll depth (ns ++ ns') = max (reachAll depth ns) (reachAll depth ns') := by
  induction ns
  case nil => simp [reachAll]
  case cons n ns hi => simp [reachAll, hi, Nat.max_assoc]

-- Whether the children of a node start no branch if it starts one itself.
def isPlain : Node → Bool
  | .tag "else" _ children => !children.any isElse
  | _ => true

-- The children of a conditional, with all from its first `else if` on in a conditional of its own,
-- and so on in that one.
def nest : List Node → List Node
  | [] => []
  | .tag "else" content children :: ns =>
    match IfHeader.elseCondition? content.toList with
    | some condition =>
      [.tag "else" "" [], .tag "if" (.ofList condition) (children ++ nest ns)]
    | none => .tag "else" content children :: ns
  | n :: ns => n :: nest ns

theorem nest_cons {n : Node} (h : n.isElse = false) (ns : List Node) :
    nest (n :: ns) = n :: nest ns := by
  cases n <;> simp_all [nest, isElse]

end Node

namespace Compile

variable {α : Type} {defaults : LoopNames} {s : Scope} {n n' : Node} {ns ns' : List Node}

-- The same outcome twice, but for the directive that an error shows.
inductive Agree : Except CompileError α × Context → Except CompileError α × Context → Prop
  | ok {a context} : Agree (.ok a, context) (.ok a, context)
  | error {e e' : CompileError} {context context'} :
    e.code = e'.code → e.message = e'.message → Agree (.error e, context) (.error e', context')

theorem Leaves.unique {k : Nat} {a b : α} {q : Bool} {c c₁ c₂ : Context}
    (h₁ : Leaves s k (.ok a) q c c₁) (h₂ : Leaves s k (.ok b) q c c₂) : c₁ = c₂ := by
  have hl := h₁.within.loops_eq.trans h₂.within.loops_eq.symm
  have hd := h₁.within.depth_eq.trans h₂.within.depth_eq.symm
  have hm := (h₁.maxDepth_eq rfl).trans (h₂.maxDepth_eq rfl).symm
  have hp := (h₁.pending_eq rfl).trans (h₂.pending_eq rfl).symm
  have ⟨⟨_, _, _⟩, _⟩ := c₁
  have ⟨⟨_, _, _⟩, _⟩ := c₂
  cases hl
  cases hd
  cases hm
  cases hp
  rfl

-- Nodes that emit the same fragments and have the same faults compile to the same.
theorem agree_node (context : Context) (hr : ∀ depth, n.reach depth = n'.reach depth)
    (hf : n.faults.map (·.fault) = n'.faults.map (·.fault))
    (he : ∀ {f}, Emits defaults context.scope n f → Emits defaults context.scope n' f) :
    Agree (node defaults n context) (node defaults n' context) := by
  have ⟨_, ho, h⟩ := settles_node defaults context.scope n
  have ⟨_, ho', h'⟩ := settles_node defaults context.scope n'
  have ⟨c, hc, hl⟩ := h context.pending context ⟨rfl, rfl⟩ rfl
  have ⟨c', hc', hl'⟩ := h' context.pending context ⟨rfl, rfl⟩ rfl
  rw [hc, hc']
  cases ho <;> cases ho'
  case ok.ok hf _ _ hf' =>
    cases (he hf).unique hf' rfl
    cases hl.unique (hr context.scope.depth ▸ hl')
    exact .ok
  case ok.error hn _ _ he => simp_all
  case error.ok he _ _ hn => simp_all
  case error.error e he e' he' =>
    have hf := congrArg List.head? hf
    rw [List.head?_map, List.head?_map, he, he'] at hf
    have hf : e.fault = e'.fault := Option.some.inj hf
    exact .error (congrArg CompileFault.code hf) (congrArg CompileFault.message hf)

-- Two lists of children from which conditionals with the same code are made.
structure Alike (defaults : LoopNames) (ns ns' : List Node) : Prop where
  branches : ∀ {s fs arms}, EmitsBranches defaults s ns fs arms →
    ∃ arms', EmitsBranches defaults s ns' fs arms' ∧ choose arms' = choose arms
  faults : ∀ directive directive', (Node.branchFaults directive ns).map (·.fault) =
    (Node.branchFaults directive' ns').map (·.fault)
  reach : ∀ depth, Node.reachAll depth ns = Node.reachAll depth ns'

theorem EmitsAll.branches {defaults s ns ns' fs gs arms} (hn : ns.any Node.isElse = false)
    (hb : EmitsBranches defaults s ns' fs arms) :
    EmitsAll defaults s ns gs → EmitsBranches defaults s (ns ++ ns') (gs ++ fs) arms
  | .nil => hb
  | .cons h hg => by
    have ⟨hn, hs⟩ := Bool.or_eq_false_iff.mp hn
    exact .sibling hn h (hg.branches hs hb)

namespace Alike

theorem refl (ns : List Node) : Alike defaults ns ns where
  branches h := ⟨_, h, rfl⟩
  faults directive directive' := Node.fault_branchFaults directive directive' ns
  reach _ := rfl

theorem sibling (hn : n.isElse = false) (h : Alike defaults ns ns') :
    Alike defaults (n :: ns) (n :: ns') where
  branches hb := by
    cases hb
    case sibling he hb =>
      have ⟨_, hb, ha⟩ := h.branches hb
      exact ⟨_, .sibling hn he hb, ha⟩
    case otherwise => cases hn
  faults directive directive' := by
    simp only [Node.branchFaults_cons hn, List.map_append, h.faults directive directive']
  reach depth := by simp only [Node.reachAll, h.reach]

theorem append {before : List Node} (hn : before.any Node.isElse = false)
    (h : Alike defaults ns ns') : Alike defaults (before ++ ns) (before ++ ns') := by
  induction before
  case nil => exact h
  case cons n before hi =>
    simp only [List.any_cons, Bool.or_eq_false_iff] at hn
    exact sibling hn.1 (hi hn.2)

-- The step from one branch to a conditional inside of the last branch.
theorem nest {marker other : String} {children : List Node} {condition : List Char}
    (hc : IfHeader.elseCondition? marker.toList = some condition)
    (hn : children.any Node.isElse = false)
    (ho : IfHeader.elseCondition? other.toList = none) (h : Alike defaults ns ns') :
    Alike defaults (.tag "else" marker children :: ns)
      [.tag "else" other [], .tag "if" (.ofList condition) (children ++ ns')] where
  branches hb := by
    cases hb
    case sibling hn _ _ => cases hn
    case otherwise hg hb ht =>
      have ⟨arms', hb, ha⟩ := h.branches hb
      cases ht
      case always hc' _ => cases hc.symm.trans hc'
      case condition hc' hs =>
        cases hc.symm.trans hc'
        have hi : IfHeader.condition? (String.ofList condition).toList = some condition := by
          simpa using IfHeader.condition?_of_elseCondition? hc
        have he := Emits.conditional hi hs (hg.branches hn hb)
        refine ⟨_, .otherwise (.always ho rfl) .nil (.sibling rfl he .nil), ?_⟩
        simp only [choose, ha, assemble, assembleFrom, Fragment.after, List.nil_append,
          Bool.false_eq_true, if_false]
  faults directive directive' := by
    let inner := (Node.tag "if" (.ofList condition) (children ++ ns')).source
    have hs := Node.fault_sourceFaults directive inner condition
    have hb := h.faults directive inner
    simp [Node.branchFaults, Node.faults, Node.faultsAll, Node.elseFaults, Node.conditionFaults, hc,
      ho, IfHeader.condition?_of_elseCondition? hc, Node.branchFaults_append hn, Node.isElse, hs,
      hb, inner]
  reach depth := by
    simp [Node.reachAll, Node.reach, Node.reachAll_append, h.reach]

theorem agree (h : Alike defaults ns ns') (content : String) (context : Context) :
    Agree (node defaults (.tag "if" content ns) context)
      (node defaults (.tag "if" content ns') context) := by
  refine agree_node context (fun depth => ?_) ?_ fun he => ?_
  case refine_1 => simp only [Node.reach, h.reach]
  case refine_2 =>
    simp only [Node.faults, List.map_append]
    rw [h.faults, Node.fault_conditionFaults]
  case refine_3 =>
    obtain ⟨_, _, _, _, hc, ht, hb, hf⟩ := he.of_conditional
    obtain ⟨_, hb, ha⟩ := h.branches hb
    have he := Emits.conditional hc ht hb
    rw [choose, ha] at he
    exact hf ▸ he

end Alike

theorem alike_nest {ns : List Node} (h : ns.all Node.isPlain = true) :
    Alike defaults ns (Node.nest ns) := by
  induction ns
  case nil => exact .refl []
  case cons n ns hi =>
    have ⟨hn, hs⟩ := Bool.and_eq_true_iff.mp h
    match n with
    | .text _ => exact .sibling rfl (hi hs)
    | .tag kind content children =>
      by_cases hk : kind = "else"
      case neg =>
        have hn : (Node.tag kind content children).isElse = false := by simpa [Node.isElse] using hk
        rw [Node.nest_cons hn]
        exact .sibling hn (hi hs)
      case pos =>
        subst hk
        simp only [Node.nest]
        split
        case h_1 hc => exact .nest hc (by simpa [Node.isPlain] using hn) rfl (hi hs)
        case h_2 => exact .refl _

end Compile

-- A branch with a condition, and all branches after it, may as well stand in a conditional of its
-- own in the last branch of the conditional before it. So a chain of any length may be taken apart
-- step by step, wherever it stands.
theorem else_if_nests (defaults : LoopNames) (context : Compile.Context) (content : String) :
    (∀ (before children after : List Node) (marker other : String) (condition : List Char),
      before.any Node.isElse = false → children.any Node.isElse = false →
      IfHeader.elseCondition? marker.toList = some condition →
      IfHeader.elseCondition? other.toList = none →
      Compile.Agree
        (Compile.node defaults
          (.tag "if" content (before ++ .tag "else" marker children :: after)) context)
        (Compile.node defaults
          (.tag "if" content (before ++
            [.tag "else" other [], .tag "if" (.ofList condition) (children ++ after)])) context)) ∧
    ∀ children : List Node, children.all Node.isPlain = true →
      Compile.Agree (Compile.node defaults (.tag "if" content children) context)
        (Compile.node defaults (.tag "if" content (Node.nest children)) context) := by
  constructor
  case left =>
    intro before children after marker other condition hb hn hc ho
    exact ((Compile.Alike.refl after).nest hc hn ho |>.append hb).agree content context
  case right =>
    intro children h
    exact (Compile.alike_nest h).agree content context

theorem else_if_nests_three :
    let context : Compile.Context := ⟨⟨[⟨"k", "v"⟩], 1, 1⟩, true⟩
    let chain : List Node := [.text "a", .tag "else" "if v" [.text "b"], .tag "=" "k" [],
      .tag "else" " k " [], .text "c", .tag "else" "" [.text "d"]]
    let step : List Node := [.text "a", .tag "else" " if" [], .tag "if" "v" [.text "b",
      .tag "=" "k" [], .tag "else" " k " [], .text "c", .tag "else" "" [.text "d"]]]
    let nested : List Node := [.text "a", .tag "else" "" [], .tag "if" "v" [.text "b",
      .tag "=" "k" [], .tag "else" "" [], .tag "if" "k" [.text "c", .tag "else" "" [.text "d"]]]]
    (Compile.node .default (.tag "if" "x" chain) context).1.isOk = true ∧
      Compile.Agree (Compile.node .default (.tag "if" "x" chain) context)
        (Compile.node .default (.tag "if" "x" step) context) ∧
      Compile.Agree (Compile.node .default (.tag "if" "x" chain) context)
        (Compile.node .default (.tag "if" "x" nested) context) := by
  have h := else_if_nests .default ⟨⟨[⟨"k", "v"⟩], 1, 1⟩, true⟩ "x"
  refine ⟨by decide +kernel, ?_, ?_⟩
  · exact h.1 [.text "a"] [.text "b"] _ "if v" " if" "v".toList rfl rfl (by decide) (by decide)
  · exact h.2 _ (by decide)

end Stencil
