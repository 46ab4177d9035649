import Stencil.Proofs.Compiling.Basic
import Stencil.Proofs.Meaning.Directive
import Stencil.Render.Native
import Stencil.Render.Template

-- A compiled template renders as its tree says. The steps of a compilation keep the loops around
-- the place at hand, and what they add to the code means what the nodes mean that they read.
namespace Stencil
namespace Act.Triple

variable {σ ε α β : Type} {P P' : σ → Prop} {Q : α → σ → Prop} {R : β → σ → Prop} {F : α → Prop}
  {x : Act σ ε α} {f : α → Act σ ε β}

theorem bind_of (hx : Triple P x fun a s => P' s ∧ F a) (hf : ∀ a, F a → Triple P' (f a) R) :
    Triple P (x >>= f) R :=
  hx.bind fun a s b s' ⟨hs, ha⟩ => hf a ha s b s' hs

theorem of_state (h : ∀ s, P s → ∃ P' : σ → Prop, Triple P' x Q ∧ P' s) : Triple P x Q := by
  intro s a s' hp
  have ⟨_, h, hs⟩ := h s hp
  exact h s a s' hs

theorem within {before : σ → σ} {after : σ → σ → σ}
    (h : ∀ s, P s → Triple (· = before s) x fun a s' => Q a (after s s')) :
    Triple P (Act.within before x after) Q := by
  intro s a s' hp hx
  simp only [Act.within] at hx
  cases hr : x (before s)
  case mk r s₁ =>
    rw [hr] at hx
    cases hx
    exact h s hp _ a s₁ rfl hr

end Act.Triple

namespace Compile

open Act Eval

variable {σ α : Type} {host : Host σ} {input : Input} {loops : List LoopNames} {p : Bool}
  {directive : String} {cs : List Char} {code : Code} {F : α → Prop}

structure Context.At (loops : List LoopNames) (p : Bool) (c : Context) : Prop where
  loops_eq : c.scope.loops = loops
  pending_eq : c.pending = p

-- A step that keeps the loops and the group at hand, and whose result is in `F`.
def Keeps (loops : List LoopNames) (p : Bool) (x : Compile α) (F : α → Prop) : Prop :=
  Triple (Context.At loops p) x fun a c => c.At loops p ∧ F a

namespace Keeps

theorem pure {a : α} (h : F a) : Keeps loops p (pure a) F :=
  Triple.pure fun _ hc => ⟨hc, h⟩

theorem bind {β : Type} {G : β → Prop} {x : Compile α} {f : α → Compile β}
    (hx : Keeps loops p x F) (hf : ∀ a, F a → Keeps loops p (f a) G) :
    Keeps loops p (x >>= f) G :=
  Triple.bind_of hx hf

theorem scope : Keeps loops p scope fun s => s.loops = loops := by
  intro c s c' hc h
  cases h
  exact ⟨hc, hc.loops_eq⟩

theorem check {x : Except CompileFault α} :
    Keeps loops p (check directive x) fun a => x = .ok a := by
  cases x
  case ok => exact .pure rfl
  case error => exact Triple.fail

theorem group {x : Compile α}
    (h : Triple (Context.At loops false) x fun a c => c.scope.loops = loops ∧ F a) :
    Keeps loops p (group x) F := by
  refine Triple.within fun c hc => ?_
  refine h.weaken ?_ fun a c' hc' => ⟨⟨hc'.1, hc.pending_eq⟩, hc'.2⟩
  rintro _ rfl
  exact ⟨hc.loops_eq, rfl⟩

theorem inLoop {names : LoopNames} {x : Compile α} (h : Keeps (names :: loops) p x F) :
    Keeps loops p (inLoop names x) F := by
  refine Triple.within fun c hc => ?_
  refine h.weaken ?_ fun a c' hc' => ⟨⟨?_, hc'.1.pending_eq⟩, hc'.2⟩
  · rintro _ rfl
    exact ⟨congrArg (names :: ·) hc.loops_eq, hc.pending_eq⟩
  · simp [Scope.pop, Scope.leave, hc'.1.loops_eq]

theorem expression :
    Keeps loops p (expression directive cs) fun code =>
      ∃ e s, Expr.read cs = .ok e ∧ s.loops = loops ∧ code = e.toCode s := by
  unfold Compile.expression
  cases he : Expr.read cs
  case error => exact Triple.fail
  case ok e => exact scope.bind fun s hs => .pure ⟨e, s, rfl, hs, rfl⟩

variable (host input) in
theorem expression_means :
    Keeps loops p (Compile.expression directive cs) fun code =>
      Means host input loops Eq code fun env => Meaning.source host input env cs := by
  refine expression.weaken (fun _ h => h) ?_
  rintro _ c ⟨hc, e, s, he, rfl, rfl⟩
  refine ⟨hc, fun slots env hb => ?_⟩
  simp only [Meaning.source, he]
  exact simulates_toCode hb e

theorem accessors {y : Env → Meaning σ Value} {pieces : List (List Char)}
    (h : Means host input loops Eq code y) :
    Keeps loops p (accessors directive code pieces) fun code =>
      Means host input loops Eq code (fun env => do
        let fs ← Meaning.accessors host input env pieces
        Meaning.pass host fs (← y env)) := by
  induction pieces generalizing code y
  case nil => exact .pure (by simpa [Meaning.accessors, Meaning.pass] using h)
  case cons piece pieces hi =>
    unfold Compile.accessors
    split
    case h_1 => exact Triple.fail
    case h_2 =>
      refine (expression_means host input).bind fun callee hc => ?_
      simpa [Meaning.accessors, Meaning.pass] using hi (hc.call h)

theorem substitution :
    Keeps loops p (substitution directive cs) fun code =>
      Means host input loops Eq code fun env => Meaning.substitution host input env cs := by
  unfold Compile.substitution Meaning.substitution
  cases splitOutside ['=', '>'] cs
  case nil => exact Triple.fail
  case cons base pieces =>
    simp only
    split
    case h_1 => exact Triple.fail
    case h_2 =>
      refine (expression_means host input).bind fun value hv => scope.bind fun s _ => ?_
      simpa using accessors hv.dethunk

theorem argument {given : Option (List Char)} {missing : Code} {y : Env → Meaning σ Value}
    (h : Means host input loops Eq missing y) :
    Keeps loops p (argument directive given missing) fun code =>
      Means host input loops Eq code fun env => Meaning.argument host input env given (y env) := by
  cases given
  case none => exact .pure h
  case some => exact expression_means host input

theorem invocation :
    Keeps loops p (invocation directive cs) fun code =>
      Means host input loops Value.IsText code fun env => Meaning.invocation host input env cs := by
  refine check.bind fun header hh => scope.bind fun s hs => ?_
  subst hs
  have hd : Means host input s.loops Eq _ _ := .passedData
  have ho : Means host input s.loops Eq .options _ := fun _ _ _ => .pure rfl
  refine (argument hd).bind fun d hd => (argument ho).bind fun o ho => ?_
  refine expression.bind fun selector hs => .pure ?_
  obtain ⟨e, s', he, hl, rfl⟩ := hs
  have hs : Means host input s'.loops _ _ _ := .selector he
  simpa [Meaning.invocation, hh] using hd.invoke ho (hl ▸ hs)

end Keeps

def Fragment.Means (host : Host σ) (input : Input) (loops : List LoopNames) :
    Fragment → (Env → Meaning σ String) → Prop
  | text code => Eval.Means host input loops Value.IsText code
  | value code => Eval.Means host input loops Value.Prints code

theorem Fragment.Means.prints {fragment : Fragment} {y : Env → Meaning σ String}
    (h : fragment.Means host input loops y) :
    Eval.Means host input loops Value.Prints fragment.code y := by
  cases fragment
  case text => exact Eval.Means.mono h fun _ _ => Value.IsText.prints
  case value => exact h

-- The code of the siblings before a place, of which there are some if anything is pending.
structure Before (host : Host σ) (input : Input) (loops : List LoopNames) (p : Bool) (code : Code)
    (y : Env → Meaning σ String) : Prop where
  means : Means host input loops Value.IsText code y
  empty : p = false → y = fun _ => pure ""

theorem triple_append {fragment : Fragment} {y z : Env → Meaning σ String}
    (hy : Before host input loops p code y) (hz : fragment.Means host input loops z) :
    Triple (Context.At loops p) (append code fragment) fun code c =>
      c.At loops true ∧
        Before host input loops true code fun env => Meaning.concat (y env) (z env) := by
  rintro c code' c' hc h
  cases h
  refine ⟨⟨hc.loops_eq, rfl⟩, ?_, by simp⟩
  cases hp : c.pending <;> simp only [if_true, Bool.false_eq_true, if_false]
  case true =>
    intro slots env hb
    rw [eval_join]
    exact hy.means.concat hz.prints slots env hb
  case false =>
    have hy := hy.empty (hc.pending_eq ▸ hp)
    subst hy
    simp only [Meaning.pure_concat]
    cases fragment
    case text => exact hz
    case value => simpa only [Meaning.pure_concat] using Means.empty.concat hz

theorem Before.start : Before host input loops false .empty fun _ => pure "" :=
  ⟨.empty, fun _ => rfl⟩

theorem startGroup_triple : Triple (Context.At loops p) startGroup fun _ c => c.At loops false := by
  rintro c _ c' hc h
  cases h
  exact ⟨hc.loops_eq, rfl⟩

-- The condition of a branch after the first and its code.
inductive Tests (host : Host σ) (input : Input) (loops : List LoopNames) :
    Option (List Char) → Option Code → Prop
  | condition {cs test} :
    (Means host input loops Eq test fun env => Meaning.source host input env cs) →
    Tests host input loops (some cs) (some test)
  | always : Tests host input loops none none

variable (host input) in
theorem keeps_elseTest {isLast : Bool} :
    Keeps loops p (elseTest directive cs isLast)
      (Tests host input loops (IfHeader.elseCondition? cs)) := by
  unfold elseTest
  cases IfHeader.elseCondition? cs
  case some => exact (Keeps.expression_means host input).bind fun _ h => .pure (.condition h)
  case none =>
    cases isLast
    case true => exact .pure .always
    case false => exact Triple.fail

theorem means_choose {test : Option Code} {body : Code} {arms : List Arm}
    {y z : Env → Meaning σ String} (ht : Tests host input loops (IfHeader.elseCondition? cs) test)
    (hb : Means host input loops Value.IsText body y)
    (ha : Means host input loops Value.IsText (choose arms) z) :
    Means host input loops Value.IsText (choose (⟨test, body⟩ :: arms)) (fun env => do
      let applies ←
        match IfHeader.elseCondition? cs with
        | some condition => Value.isTruthy <$> Meaning.source host input env condition
        | none => pure true
      if applies then y env else z env) := by
  generalize IfHeader.elseCondition? cs = given at ht
  cases ht
  case condition h => simpa [choose] using h.cond hb ha
  case always => simpa [choose] using hb

variable (host input) in
theorem keeps_firstTest :
    Keeps loops p (firstTest directive cs) fun test =>
      Means host input loops Eq test fun env => Meaning.condition host input env cs := by
  unfold firstTest Meaning.condition
  cases IfHeader.condition? cs
  case some => exact Keeps.expression_means host input
  case none => exact Triple.fail

-- The output of a branch, after the siblings that it has so far, and of the branches after it.
structure Branches (host : Host σ) (input : Input) (loops : List LoopNames) (defaults : LoopNames)
    (ns : List Node) (y : Env → Meaning σ String) (r : Code × List Arm) : Prop where
  body : Means host input loops Value.IsText r.1 fun env =>
    Meaning.concat (y env) (Meaning.branch defaults host input env ns)
  arms : Means host input loops Value.IsText (choose r.2) fun env =>
    Meaning.otherwise defaults host input env ns

section

variable {defaults : LoopNames} {n : Node} {ns : List Node} {env : Env}

theorem branch_cons (h : n.isElse = false) :
    Meaning.branch defaults host input env (n :: ns) =
      Meaning.concat (Meaning.node defaults host input env n)
        (Meaning.branch defaults host input env ns) := by
  cases n <;> simp_all [Meaning.branch, Node.isElse]

theorem otherwise_cons (h : n.isElse = false) :
    Meaning.otherwise defaults host input env (n :: ns) =
      Meaning.otherwise defaults host input env ns := by
  cases n <;> simp_all [Meaning.otherwise, Node.isElse]

theorem triple_branches_cons {y : Env → Meaning σ String} (hn : n.isElse = false)
    (h : Before host input loops p code y)
    (hf : Keeps loops p (node defaults n) fun fragment =>
      fragment.Means host input loops fun env => Meaning.node defaults host input env n)
    (hns : ∀ code y, Before host input loops true code y →
      Triple (Context.At loops true) (branches defaults directive ns code) fun r c =>
        c.scope.loops = loops ∧ Branches host input loops defaults ns y r) :
    Triple (Context.At loops p) (branches defaults directive (n :: ns) code) fun r c =>
      c.scope.loops = loops ∧ Branches host input loops defaults (n :: ns) y r := by
  rw [branches_cons hn]
  refine Triple.bind_of hf fun fragment hf => Triple.bind_of (triple_append h hf) fun code hc => ?_
  refine (hns code _ hc).weaken (fun _ hc => hc) fun r c hr => ⟨hr.1, ?_, ?_⟩
  · simpa only [branch_cons hn, Meaning.concat_assoc] using hr.2.body
  · simpa only [otherwise_cons hn] using hr.2.arms

-- The siblings of a group of their own.
theorem keeps_nodes
    (h : Triple (Context.At loops false) (nodes defaults ns .empty) fun code c =>
      c.scope.loops = loops ∧ Before host input loops c.pending code fun env =>
        Meaning.concat (pure "") (Meaning.nodes defaults host input env ns)) :
    Keeps loops p (group (nodes defaults ns .empty)) fun code =>
      Means host input loops Value.IsText code fun env =>
        Meaning.nodes defaults host input env ns := by
  refine Keeps.group (h.weaken (fun _ hc => hc) fun code c hc => ⟨hc.1, ?_⟩)
  simpa only [Meaning.pure_concat] using hc.2.means

end

mutual

theorem keeps_node (host : Host σ) (input : Input) (defaults : LoopNames) (loops : List LoopNames)
    (p : Bool) : (n : Node) →
    Keeps loops p (node defaults n) fun fragment =>
      fragment.Means host input loops fun env => Meaning.node defaults host input env n
  | .text s => .pure fun _ _ _ => .pure rfl
  | .tag kind content children => by
    simp only [node]
    split
    case h_1 =>
      simp only [Meaning.node]
      exact Keeps.substitution.bind fun code h => .pure h.prints
    case h_2 =>
      have hb := triple_branches host input defaults loops
        (Node.source (.tag "if" content children)) false .empty _ children .start
      refine (keeps_firstTest host input).bind fun test ht => ?_
      refine (Keeps.group hb).bind fun r hr => .pure ?_
      have hr' := hr.body
      simp only [Meaning.pure_concat] at hr'
      simp only [Meaning.node]
      exact ht.cond hr' hr.arms
    case h_3 =>
      refine Keeps.check.bind fun header hh => ?_
      refine (Keeps.expression_means host input).bind fun container hc => ?_
      refine Keeps.scope.bind fun s hs => ?_
      subst hs
      have hn := triple_nodes host input defaults (header.names :: s.loops) false .empty _ children
        .start
      refine (keeps_nodes hn).inLoop.bind fun body hb => .pure ?_
      simp only [Meaning.node, hh]
      exact hc.each hb
    case h_4 =>
      simp only [Meaning.node]
      exact Keeps.invocation.bind fun code h => .pure h
    case h_5 => exact Triple.fail
    case h_6 => exact Triple.fail

theorem triple_nodes (host : Host σ) (input : Input) (defaults : LoopNames)
    (loops : List LoopNames) (p : Bool) (code : Code) (y : Env → Meaning σ String) :
    (ns : List Node) → Before host input loops p code y →
    Triple (Context.At loops p) (nodes defaults ns code) fun code c =>
      c.scope.loops = loops ∧ Before host input loops c.pending code fun env =>
        Meaning.concat (y env) (Meaning.nodes defaults host input env ns)
  | [], h => .pure fun c hc => by simpa [Meaning.nodes, hc.loops_eq, hc.pending_eq] using h
  | n :: ns, h => by
    refine Triple.bind_of (keeps_node host input defaults loops p n) fun fragment hf => ?_
    refine Triple.bind_of (triple_append h hf) fun code hc => ?_
    have hn := triple_nodes host input defaults loops true code _ ns hc
    simpa only [Meaning.nodes, Meaning.concat_assoc] using hn

theorem triple_branches (host : Host σ) (input : Input) (defaults : LoopNames)
    (loops : List LoopNames) (directive : String) (p : Bool) (code : Code)
    (y : Env → Meaning σ String) :
    (ns : List Node) → Before host input loops p code y →
    Triple (Context.At loops p) (branches defaults directive ns code) fun r c =>
      c.scope.loops = loops ∧ Branches host input loops defaults ns y r
  | [], h => .pure fun c hc => ⟨hc.loops_eq, by simpa [Meaning.branch] using h.means, .empty⟩
  | n :: ns, h => by
    have hf := keeps_node host input defaults loops p n
    have hns := fun p code y => triple_branches host input defaults loops directive p code y ns
    match n with
    | .text s => exact triple_branches_cons rfl h hf fun code y => hns true code y
    | .tag kind content children =>
      have hc := triple_nodes host input defaults loops false .empty _ children .start
      by_cases hk : kind = "else"
      case neg =>
        have hk : (Node.tag kind content children).isElse = false := by simpa [Node.isElse] using hk
        exact triple_branches_cons hk h hf fun code y => hns true code y
      case pos =>
        subst hk
        simp only [branches]
        refine Triple.bind_of (keeps_elseTest host input) fun test ht => ?_
        refine startGroup_triple.bind fun _ => hc.bind fun start => .of_state fun c hc => ?_
        refine ⟨_, (hns c.pending start _ hc.2).bind fun r => ?_, hc.1, rfl⟩
        refine .pure fun c hr => ⟨hr.1, ?_, ?_⟩
        · simpa [Meaning.branch] using h.means
        · have hb := hr.2.body
          simp only [Meaning.pure_concat] at hb
          simp only [Meaning.otherwise]
          exact means_choose ht hb hr.2.arms

end

theorem means_of_compile {defaults : LoopNames} {tree : List Node} {program : Program}
    (h : compile defaults tree = .ok program) (host : Host σ) (input : Input) :
    Means host input [] Value.IsText program.body fun env =>
      Meaning.nodes defaults host input env tree := by
  unfold compile at h
  split at h <;> cases h
  case h_1 body context h =>
    have hn := triple_nodes host input defaults [] false .empty _ tree .start
    exact (keeps_nodes (p := false) hn _ _ _ ⟨rfl, rfl⟩ h).2

end Compile

-- The output or the first error of a rendering, and what it leaves in the store. It does not matter
-- how a value was written that could not be called.
def outcome {σ : Type} (r : Except RenderError String × σ) : Except RenderError String × σ :=
  (r.1.mapError RenderError.unnamed, r.2)

inductive Call
  | function (f : Function) (arguments : List Value)
  | merge (sources : List Value)
  | template (selector data options : Value)

-- A host that also keeps a record of what it is called for.
def Host.recorded {σ : Type} (host : Host σ) : Host (σ × List Call) where
  fresh := fun (store, calls) =>
    let (i, store) := host.fresh store
    (i, store, calls)
  call f arguments := fun (store, calls) =>
    let (r, store) := host.call f arguments store
    (r, store, calls ++ [.function f arguments])
  pairs := host.pairs
  merge sources := fun (store, calls) =>
    let (fields, store) := host.merge sources store
    (fields, store, calls ++ [.merge sources])
  invoke selector data options := fun (store, calls) =>
    let (r, store) := host.invoke selector data options store
    (r, store, calls ++ [.template selector data options])

theorem outcome_apply_eq {σ : Type} {defaults : LoopNames} {tree : List Node} {program : Program}
    (h : compile defaults tree = .ok program) (host : Host σ) (data options : Value) (store : σ) :
    outcome (program.apply host data options store) =
      outcome (Meaning.template defaults host data options tree store) := by
  cases hi : host.fresh store
  case mk i store₁ =>
  cases hj : host.fresh store₁
  case mk j store₂ =>
    simp only [Program.apply, Meaning.template, Meaning.fresh, bind, Act.andThen, hi, hj]
    generalize (⟨Program.orEmpty i data, Program.orEmpty j options⟩ : Input) = input
    have hm : Eval.Agrees _ _ (Eval.eval host input program.body ⟨.start program.maxDepth, store₂⟩)
        (Meaning.nodes defaults host input [] tree store₂) :=
      Compile.means_of_compile h host input [] [] .nil _ rfl
    generalize Eval.eval host input program.body _ = r at hm ⊢
    generalize Meaning.nodes defaults host input [] tree store₂ = r' at hm ⊢
    cases hm
    case ok hv _ =>
      have ht : Value.text _ = _ := hv.prints
      simp only [ht]
    case error he => exact Prod.ext (congrArg Except.error he) rfl

theorem apply_eq_template {σ : Type} {defaults : LoopNames} {tree : List Node} {program : Program}
    (h : compile defaults tree = .ok program) (host : Host σ) (data options : Value) (store : σ) :
    outcome (program.apply host data options store) =
        outcome (Meaning.template defaults host data options tree store) ∧
      (program.apply host.recorded data options (store, [])).2.2 =
        (Meaning.template defaults host.recorded data options tree (store, [])).2.2 := by
  have hr := outcome_apply_eq h host.recorded data options (store, [])
  exact ⟨outcome_apply_eq h host data options store, congrArg (·.2.2) hr⟩

-- The loop calls the function `f` in each of its rounds, takes both branches of the condition, and
-- calls the template `part`.
theorem apply_eq_template_each :
    let tree : List Node := [.text "a", .tag "each" "(k, v) xs"
      [.tag "=" "v => f" [], .tag "if" "k" [.text "b", .tag "else" "" [.text "c"]],
        .tag "tmpl" "part" []]]
    let host := Template.host Store.services (Registry.empty.insert "part" (.fixed "p")) 1
    let data : Value :=
      .object 0 [("xs", .array 1 [.null, .string "d"]), ("f", .function ⟨2, "f"⟩)]
    let store : Store := ⟨3, [(2, .append "!")], [], []⟩
    ∃ program, compile .default tree = .ok program ∧
      (program.apply host data .undefined store).1 = .ok "anull!cpd!bp" ∧
      outcome (program.apply host data .undefined store) =
        outcome (Meaning.template .default host data .undefined tree store) ∧
      (program.apply host.recorded data .undefined (store, [])).2.2 =
        (Meaning.template .default host.recorded data .undefined tree (store, [])).2.2 := by
  intro tree host data store
  have hk : ((compile .default tree).toOption.map fun program =>
      (program.apply host data .undefined store).1.toOption) = some (some "anull!cpd!bp") := by
    decide +kernel
  cases h : compile .default tree <;> rw [h] at hk
  case error => cases hk
  case ok program =>
    refine ⟨program, rfl, ?_, apply_eq_template h host data .undefined store⟩
    have hk : (program.apply host data .undefined store).1.toOption = _ := Option.some.inj hk
    cases hr : (program.apply host data .undefined store).1 <;> rw [hr] at hk
    case error => cases hk
    case ok text => rw [Option.some.inj hk]

end Stencil
