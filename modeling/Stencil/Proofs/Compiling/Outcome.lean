import Stencil.Proofs.Act
import Stencil.Proofs.Compiling.Basic
import Stencil.Proofs.Compiling.Faults

namespace Stencil
namespace Node

mutual

-- The depth of the innermost loop body in a node that stands at the given depth, or zero if there
-- is no loop in it.
def reach (depth : Nat) : Node → Nat
  | .text _ => 0
  | .tag kind _ children =>
    if kind = "each" then max (depth + 1) (reachAll (depth + 1) children)
    else if kind = "if" ∨ kind = "else" then reachAll depth children
    else 0

def reachAll (depth : Nat) : List Node → Nat
  | [] => 0
  | n :: ns => max (n.reach depth) (reachAll depth ns)

end
end Node

-- The code of an expression depends on the loops around it only.
mutual

theorem Expr.toCode_congr {s s' : Scope} (h : s.loops = s'.loops) : (e : Expr) →
    e.toCode s = e.toCode s'
  | .literal _ => rfl
  | .name x => by simp only [toCode, Scope.resolve, Scope.slot?, h]
  | .array items => by simp only [toCode, Expr.listToCode_congr h items]
  | .object entries => by simp only [toCode, Expr.entriesToCode_congr h entries]
  | .member o _ => by simp only [toCode, o.toCode_congr h]
  | .index o i => by simp only [toCode, o.toCode_congr h, i.toCode_congr h]
  | .call callee arguments => by
    simp only [toCode, callee.toCode_congr h, Expr.listToCode_congr h arguments]
  | .unary _ operand => by simp only [toCode, operand.toCode_congr h]
  | .binary _ lhs rhs => by simp only [toCode, lhs.toCode_congr h, rhs.toCode_congr h]
  | .cond test consequent alternate => by
    simp only [toCode, test.toCode_congr h, consequent.toCode_congr h, alternate.toCode_congr h]

theorem Expr.listToCode_congr {s s' : Scope} (h : s.loops = s'.loops) : (es : List Expr) →
    Expr.listToCode s es = Expr.listToCode s' es
  | [] => rfl
  | e :: es => by simp only [listToCode, e.toCode_congr h, Expr.listToCode_congr h es]

theorem Expr.entriesToCode_congr {s s' : Scope} (h : s.loops = s'.loops) :
    (entries : List (String × Expr)) →
    Expr.entriesToCode s entries = Expr.entriesToCode s' entries
  | [] => rfl
  | (_, e) :: entries => by
    simp only [entriesToCode, e.toCode_congr h, Expr.entriesToCode_congr h entries]

end

namespace EachHeader

theorem names?_isSome (defaults defaults' : LoopNames) (cs : List Char) :
    (names? defaults cs).isSome = (names? defaults' cs).isSome := by
  simp only [names?]
  split <;> split <;> rfl

-- What is read as the container does not depend on the names that a loop has by default.
theorem container_read (defaults defaults' : LoopNames) (content : List Char) :
    (read defaults content).map container = (read defaults' content).map container := by
  have hn := fun cs => names?_isSome defaults defaults' cs
  simp only [read]
  split
  case h_1 => rfl
  case h_3 => rfl
  case h_2 =>
    split
    case h_1 => rfl
    case h_2 inner rest _ =>
      have hn := hn inner
      cases h : names? defaults inner <;> cases h' : names? defaults' inner <;>
        simp only [h, h', Option.isSome_some, Option.isSome_none, reduceCtorEq] at hn
      all_goals
        cases trim rest <;> simp only [Option.isSome_some, Option.isSome_none] <;> split <;> rfl

end EachHeader

namespace Compile

variable {α β : Type} {s : Scope} {k k' : Nat} {p q : Bool} {directive : String} {cs : List Char}
  {x : Compile α} {f : α → Compile β} {faults faults' : List CompileError} {R : α → Prop}
  {R' : β → Prop}

-- The scope of a context is `s`, but for the depth that has been reached.
structure Context.Within (s : Scope) (c : Context) : Prop where
  loops_eq : c.scope.loops = s.loops
  depth_eq : c.scope.depth = s.depth

-- What a step that comes out as `r` may do to the context. It restores the scope also if it fails.
structure Leaves (s : Scope) (k : Nat) (r : Except CompileError α) (q : Bool) (c c' : Context) :
    Prop where
  within : c'.Within s
  mono : c.scope.maxDepth ≤ c'.scope.maxDepth
  pending_eq : r.isOk = true → c'.pending = q
  maxDepth_eq : r.isOk = true → c'.scope.maxDepth = max c.scope.maxDepth k

-- In the scope `s`, and with `p` for whether something is pending, a step always comes out as `r`.
def Runs (s : Scope) (k : Nat) (p : Bool) (x : Compile α) (r : Except CompileError α) (q : Bool) :
    Prop :=
  ∀ c, c.Within s → c.pending = p → ∃ c', x c = (r, c') ∧ Leaves s k r q c c'

namespace Runs

theorem pure {a : α} : Runs s 0 p (pure a) (.ok a) p :=
  fun c hc hp => ⟨c, rfl, hc, Nat.le_refl _, fun _ => hp, by simp⟩

theorem fail {e : CompileError} : Runs s k p (Act.fail e : Compile α) (.error e) q :=
  fun c hc _ => ⟨c, rfl, hc, Nat.le_refl _, nofun, nofun⟩

theorem bind_ok {a : α} {r : Except CompileError β} {q' : Bool} (hx : Runs s k p x (.ok a) q)
    (hf : Runs s k' q (f a) r q') : Runs s (max k k') p (x >>= f) r q' := by
  intro c hc hp
  have ⟨c₁, hx, h₁⟩ := hx c hc hp
  have ⟨c₂, hf, h₂⟩ := hf c₁ h₁.within (h₁.pending_eq rfl)
  refine ⟨c₂, (Act.bind_apply_ok hx).trans hf, h₂.within, Nat.le_trans h₁.mono h₂.mono,
    h₂.pending_eq, ?_⟩
  intro hr
  rw [h₂.maxDepth_eq hr, h₁.maxDepth_eq rfl, Nat.max_assoc]

theorem bind_error {e : CompileError} {q' : Bool} (hx : Runs s k p x (.error e) q) :
    Runs s k' p (x >>= f) (.error e) q' := by
  intro c hc hp
  have ⟨c₁, hx, h₁⟩ := hx c hc hp
  exact ⟨c₁, Act.bind_apply_error hx, h₁.within, h₁.mono, nofun, nofun⟩

theorem bind {r : Except CompileError α} {g : α → Except CompileError β} {q' : Bool}
    (hx : Runs s k p x r q) (hf : ∀ a, Runs s k' q (f a) (g a) q') :
    Runs s (max k k') p (x >>= f) (r.bind g) q' := by
  cases r
  case error => exact hx.bind_error
  case ok a => exact hx.bind_ok (hf a)

theorem scope {f : Scope → Compile β} {r : Except CompileError β}
    (hf : ∀ s', s'.loops = s.loops → s'.depth = s.depth → f s' = f s)
    (h : Runs s k p (f s) r q) : Runs s k p (scope >>= f) r q := by
  intro c hc hp
  have hs : (Compile.scope >>= f) c = f s c := congrFun (hf c.scope hc.loops_eq hc.depth_eq) c
  rw [hs]
  exact h c hc hp

theorem group {r : Except CompileError α} {p' : Bool} (h : Runs s k false x r q) :
    Runs s k p' (group x) r p' := by
  intro c hc hp
  have ⟨c', hx, h'⟩ := h { c with pending := false } ⟨hc.loops_eq, hc.depth_eq⟩ rfl
  refine ⟨{ c' with pending := c.pending }, ?_, ⟨h'.within.loops_eq, h'.within.depth_eq⟩, h'.mono,
    fun _ => hp, h'.maxDepth_eq⟩
  simp only [Compile.group, Act.within, hx]

theorem inLoop {names : LoopNames} {r : Except CompileError α}
    (h : Runs (s.push names).enter k p x r q) :
    Runs s (max (s.depth + 1) k) p (inLoop names x) r q := by
  intro c hc hp
  have hw : Context.Within (s.push names).enter
      { c with scope := (c.scope.push names).enter } :=
    ⟨congrArg (names :: ·) hc.loops_eq, congrArg (· + 1) hc.depth_eq⟩
  have ⟨c', hx, h'⟩ := h _ hw hp
  have hm : (c.scope.push names).enter.maxDepth = max c.scope.maxDepth (s.depth + 1) := by
    simp [Scope.push, Scope.enter, hc.depth_eq]
  refine ⟨{ c' with scope := c'.scope.leave.pop }, ?_, ⟨?_, ?_⟩, ?_, h'.pending_eq, fun hr => ?_⟩
  · simp only [Compile.inLoop, Act.within, hx]
  · simp [Scope.leave, Scope.pop, h'.within.loops_eq, Scope.push, Scope.enter]
  · simp [Scope.leave, Scope.pop, h'.within.depth_eq, Scope.push, Scope.enter]
  · exact Nat.le_trans (hm ▸ Nat.le_max_left ..) h'.mono
  · rw [←Nat.max_assoc, ←hm]
    exact h'.maxDepth_eq hr

end Runs

-- A result of `R`, or the first of the faults if there are any.
inductive Outcome (faults : List CompileError) (R : α → Prop) : Except CompileError α → Prop
  | ok {a} : faults = [] → R a → Outcome faults R (.ok a)
  | error {e} : faults.head? = some e → Outcome faults R (.error e)

namespace Outcome

variable {r : Except CompileError α}

theorem map {g : α → β} (h : Outcome faults R r) (hg : ∀ a, R a → R' (g a)) :
    Outcome faults R' (r.map g) := by
  cases h
  case ok he ha => exact .ok he (hg _ ha)
  case error he => exact .error he

theorem bind {g : α → Except CompileError β} (h : Outcome faults R r)
    (hg : ∀ a, R a → Outcome faults' R' (g a)) : Outcome (faults ++ faults') R' (r.bind g) := by
  cases h
  case ok he ha => exact he ▸ hg _ ha
  case error he => exact .error (by simp [List.head?_append, he])

theorem mono {R' : α → Prop} (h : Outcome faults R r) (hr : ∀ a, R a → R' a) :
    Outcome faults R' r := by
  cases h
  case ok he ha => exact .ok he (hr _ ha)
  case error he => exact .error he

end Outcome

-- A step whose outcome is the same wherever the scope is `s`.
def Settles (s : Scope) (k : Nat) (faults : List CompileError) (x : Compile α) (R : α → Prop) :
    Prop :=
  ∃ r, Outcome faults R r ∧ ∀ p, Runs s k p x r p

namespace Settles

theorem pure {a : α} (h : R a) : Settles s 0 [] (pure a) R :=
  ⟨.ok a, .ok rfl h, fun _ => .pure⟩

theorem fail {e : CompileError} : Settles s k (e :: faults) (Act.fail e) R :=
  ⟨.error e, .error rfl, fun _ => .fail⟩

theorem mono {R' : α → Prop} (h : Settles s k faults x R) (hr : ∀ a, R a → R' a) :
    Settles s k faults x R' := by
  have ⟨r, ho, h⟩ := h
  exact ⟨r, ho.mono hr, h⟩

theorem bind (hx : Settles s k faults x R) (hf : ∀ a, R a → Settles s k' faults' (f a) R') :
    Settles s (max k k') (faults ++ faults') (x >>= f) R' := by
  have ⟨r, ho, hr⟩ := hx
  cases ho
  case error e he =>
    refine ⟨.error e, .error ?_, fun p => (hr p).bind_error⟩
    simp [List.head?_append, he]
  case ok a he ha =>
    have ⟨r', ho', hr'⟩ := hf a ha
    exact ⟨r', he ▸ ho', fun p => (hr p).bind_ok (hr' p)⟩

theorem bind_flat (hx : Settles s 0 faults x R) (hf : ∀ a, R a → Settles s k faults' (f a) R') :
    Settles s k (faults ++ faults') (x >>= f) R' := by
  simpa only [Nat.zero_max] using hx.bind hf

theorem map {R' : β → Prop} {g : α → β} (hx : Settles s k faults x R) (h : ∀ a, R a → R' (g a)) :
    Settles s k faults (do return g (← x)) R' := by
  simpa using hx.bind fun a ha => pure (h a ha)

theorem scope {f : Scope → Compile β}
    (hf : ∀ s', s'.loops = s.loops → s'.depth = s.depth → f s' = f s)
    (h : Settles s k faults (f s) R') : Settles s k faults (scope >>= f) R' :=
  have ⟨r, ho, h⟩ := h
  ⟨r, ho, fun p => (h p).scope hf⟩

theorem expression :
    Settles s 0 (Node.sourceFaults directive cs) (expression directive cs) (Spells s cs) := by
  simp only [Compile.expression, Node.sourceFaults]
  cases he : Expr.read cs
  case error e => exact fail
  case ok e =>
    refine scope (fun s' hl _ => ?_) (pure ⟨e, he, rfl⟩)
    simp only [Expr.toCode_congr hl]

theorem accessors {code : Code} {pieces : List (List Char)} :
    Settles s 0 (pieces.flatMap (Node.pieceFaults .emptyAccessor directive))
      (accessors directive code pieces) (Passes s code pieces) := by
  induction pieces generalizing code
  case nil => exact pure .nil
  case cons piece pieces hi =>
    simp only [Compile.accessors, List.flatMap_cons, Node.pieceFaults]
    cases h : trim piece
    case nil => exact fail
    case cons => exact expression.bind fun _ hc => hi.mono fun _ => .cons (h ▸ hc)

theorem substitution :
    Settles s 0 (Node.substitutionFaults directive cs) (substitution directive cs)
      (Substitutes s cs) := by
  unfold Compile.substitution Node.substitutionFaults
  cases hs : splitOutside ['=', '>'] cs
  case nil => exact fail
  case cons base pieces =>
    simp only [Node.pieceFaults]
    cases h : trim base
    case nil => exact fail
    case cons =>
      refine expression.bind fun value hv => scope (fun s' _ hd => ?_) ?_
      · simp only [Scope.valueTemp, hd]
      · exact accessors.mono fun _ => .intro hs (h ▸ hv)

theorem argument {given : Option (List Char)} {missing : Code} :
    Settles s 0 (Node.argumentFaults directive given) (argument directive given missing)
      (Supplies s missing given) := by
  cases given
  case none => exact pure rfl
  case some => exact expression

theorem invocation :
    Settles s 0 (Node.invocationFaults directive cs) (invocation directive cs)
      (Invokes s cs) := by
  unfold Compile.invocation Node.invocationFaults
  cases hh : TmplHeader.read cs
  case error => exact fail
  case ok header =>
    simp only [check, pure_bind]
    refine scope (fun s' hl _ => ?_) ?_
    · simp only [passedData, Scope.names, hl]
    · rw [List.append_assoc]
      refine argument.bind fun d hd => argument.bind fun o ho => ?_
      exact expression.map fun _ hs => .intro hh hd ho hs

theorem firstTest :
    Settles s 0 (Node.conditionFaults directive cs) (firstTest directive cs) fun test =>
      ∃ condition, IfHeader.condition? cs = some condition ∧ Spells s condition test := by
  unfold Compile.firstTest Node.conditionFaults
  cases IfHeader.condition? cs
  case none => exact fail
  case some => exact expression.mono fun _ h => ⟨_, rfl, h⟩

theorem elseTest {isLast : Bool} :
    Settles s 0 (Node.elseFaults directive cs isLast) (elseTest directive cs isLast)
      (Distinguishes s cs isLast) := by
  unfold Compile.elseTest Node.elseFaults
  cases hc : IfHeader.elseCondition? cs
  case some => exact expression.map fun _ h => .condition hc h
  case none =>
    cases isLast
    case true => exact pure (.always hc rfl)
    case false => exact fail

end Settles

theorem Runs.append {code : Code} {fragment : Fragment} :
    Runs s 0 p (append code fragment) (.ok (fragment.after p code)) true := by
  intro c hc hp
  refine ⟨{ c with pending := true }, ?_, ⟨hc.loops_eq, hc.depth_eq⟩, Nat.le_refl _, fun _ => rfl,
    by simp⟩
  subst hp
  rfl

theorem Runs.startGroup : Runs s 0 p startGroup (.ok ()) false :=
  fun c hc _ => ⟨{ c with pending := false }, rfl, ⟨hc.loops_eq, hc.depth_eq⟩, Nat.le_refl _,
    fun _ => rfl, by simp⟩

-- Siblings, whose fragments do not depend on the code before them.
def Collects (defaults : LoopNames) (s : Scope) (ns : List Node) : Prop :=
  ∃ r, Outcome (Node.faultsAll ns) (EmitsAll defaults s ns) r ∧
    ∀ p code, Runs s (Node.reachAll s.depth ns) p (nodes defaults ns code)
      (r.map (assembleFrom p code)) (p || !ns.isEmpty)

-- What remains of a branch, and the branches after it.
def CollectsBranches (defaults : LoopNames) (directive : String) (s : Scope) (ns : List Node) :
    Prop :=
  ∃ (r : Except CompileError (List Fragment × List Arm)) (q : Bool → Bool),
    Outcome (Node.branchFaults directive ns) (fun r => EmitsBranches defaults s ns r.1 r.2) r ∧
    ∀ p code, Runs s (Node.reachAll s.depth ns) p (branches defaults directive ns code)
      (r.map fun r => (assembleFrom p code r.1, r.2)) (q p)

section

variable {defaults : LoopNames} {n : Node} {ns : List Node}

-- A sibling whose fragment is added to the code before it, and what comes after it.
theorem Runs.sibling {code : Code} {rest : Code → Compile β} {r : Except CompileError Fragment}
    {g : Fragment → Except CompileError β} (h : Runs s k p (node defaults n) r p)
    (hr : ∀ fragment : Fragment, Runs s k' true (rest (fragment.after p code)) (g fragment) q) :
    Runs s (max k k') p (do
      let fragment ← node defaults n
      rest (← Compile.append code fragment)) (r.bind g) q := by
  refine h.bind fun fragment => ?_
  simpa only [Nat.zero_max] using Runs.append.bind_ok (hr fragment)

theorem Collects.cons (h : Settles s (n.reach s.depth) n.faults (node defaults n)
    (Emits defaults s n)) (hs : Collects defaults s ns) : Collects defaults s (n :: ns) := by
  have ⟨r₁, ho₁, h₁⟩ := h
  have ⟨r₂, ho₂, h₂⟩ := hs
  refine ⟨r₁.bind fun f => r₂.map (f :: ·), ho₁.bind fun f hf => ho₂.map fun _ => .cons hf, ?_⟩
  intro p code
  have h := (h₁ p).sibling fun f => h₂ true (f.after p code)
  simp only [Node.reachAll, List.isEmpty_cons, Bool.not_false, Bool.or_true]
  cases r₁ <;> cases r₂ <;> exact h

theorem CollectsBranches.sibling (hn : n.isElse = false)
    (h : Settles s (n.reach s.depth) n.faults (node defaults n) (Emits defaults s n))
    (hs : CollectsBranches defaults directive s ns) :
    CollectsBranches defaults directive s (n :: ns) := by
  have ⟨r₁, ho₁, h₁⟩ := h
  have ⟨r₂, q, ho₂, h₂⟩ := hs
  simp only [CollectsBranches, branches_cons hn, Node.branchFaults_cons hn]
  refine ⟨r₁.bind fun f => r₂.map fun r => (f :: r.1, r.2), fun _ => q true,
    ho₁.bind fun f hf => ho₂.map fun _ => .sibling hn hf, fun p code => ?_⟩
  have h := (h₁ p).sibling fun f => h₂ true (f.after p code)
  cases r₁ <;> cases r₂ <;> exact h

theorem CollectsBranches.otherwise {content : String} {children : List Node}
    (hc : Collects defaults s children) (hs : CollectsBranches defaults directive s ns) :
    CollectsBranches defaults directive s (.tag "else" content children :: ns) := by
  have ⟨r₁, ho₁, h₁⟩ : Settles s 0 _ (elseTest directive content.toList (!ns.any Node.isElse)) _ :=
    .elseTest
  have ⟨r₂, ho₂, h₂⟩ := hc
  have ⟨r₃, q, ho₃, h₃⟩ := hs
  simp only [CollectsBranches, branches, Node.branchFaults, List.append_assoc]
  refine ⟨r₁.bind fun test => r₂.bind fun gs => r₃.map fun r =>
      ([], ⟨test, assemble (gs ++ r.1)⟩ :: r.2), fun _ => q !children.isEmpty,
    ho₁.bind fun test ht => ho₂.bind fun gs hg => ho₃.map fun _ => .otherwise ht hg,
    fun p code => ?_⟩
  have h := (h₁ p).bind fun test => Runs.startGroup.bind fun _ =>
    (h₂ false .empty).bind fun start => (h₃ (!children.isEmpty) start).bind fun r =>
      Runs.pure (a := (code, (⟨test, r.1⟩ : Arm) :: r.2))
  have hk : Node.reachAll s.depth (.tag "else" content children :: ns) =
      max 0 (max 0 (max (Node.reachAll s.depth children) (max (Node.reachAll s.depth ns) 0))) := by
    simp [Node.reachAll, Node.reach]
  rw [hk]
  cases ho₂
  case error => cases r₁ <;> exact h
  case ok gs _ hg =>
    have ha (fs : List Fragment) :
        assembleFrom (!children.isEmpty) (assembleFrom false .empty gs) fs =
          assemble (gs ++ fs) := by
      rw [assemble, assembleFrom_append, hg.isEmpty_eq, Bool.false_or]
    cases r₁ <;> cases r₃ <;> simp only [Except.bind, Except.map, ha] at h <;> exact h

theorem Settles.conditional (content : String) {children : List Node}
    (hb : CollectsBranches defaults directive s children) :
    Settles s (Node.reachAll s.depth children)
      (Node.conditionFaults directive content.toList ++ Node.branchFaults directive children) (do
        let test ← Compile.firstTest directive content.toList
        let (body, arms) ← Compile.group (branches defaults directive children .empty)
        return .text (choose (⟨some test, body⟩ :: arms)))
      (Emits defaults s (.tag "if" content children)) := by
  have ⟨r, q, ho, hr⟩ := hb
  have hg : Settles s (Node.reachAll s.depth children) (Node.branchFaults directive children)
      (Compile.group (branches defaults directive children .empty))
      fun r => ∃ fs, r.1 = assemble fs ∧ EmitsBranches defaults s children fs r.2 :=
    ⟨_, ho.map fun r h => ⟨r.1, rfl, h⟩, fun _ => (hr false .empty).group⟩
  refine firstTest.bind_flat fun test ⟨condition, hc, ht⟩ => ?_
  exact hg.map (g := fun r => Fragment.text (choose (⟨some test, r.1⟩ :: r.2)))
    fun r ⟨fs, hf, hb⟩ => hf ▸ Emits.conditional hc ht hb

theorem Settles.loop (directive content : String) {children : List Node} (s : Scope)
    (h : ∀ s, Collects defaults s children) :
    Settles s (max (s.depth + 1) (Node.reachAll (s.depth + 1) children))
      (Node.loopFaults directive content.toList ++ Node.faultsAll children) (do
        let header ← check directive (EachHeader.read defaults content.toList)
        let container ← Compile.expression directive header.container
        let s ← Compile.scope
        let body ← Compile.inLoop header.names (Compile.group (nodes defaults children .empty))
        return .text
          (.each s.bufferTemp s.slotCount header.names.key header.names.value container body))
      (Emits defaults s (.tag "each" content children)) := by
  unfold Node.loopFaults
  rw [EachHeader.container_read .default defaults]
  cases hh : EachHeader.read defaults content.toList
  case error => exact fail
  case ok header =>
    simp only [check, pure_bind]
    have ⟨r, ho, hr⟩ := h (s.push header.names).enter
    have hg : Settles s (max (s.depth + 1) (Node.reachAll (s.depth + 1) children))
        (Node.faultsAll children)
        (Compile.inLoop header.names (Compile.group (nodes defaults children .empty)))
        fun body => ∃ fs, body = assemble fs ∧
          EmitsAll defaults (s.push header.names).enter children fs :=
      ⟨_, ho.map fun fs h => ⟨fs, rfl, h⟩, fun _ => (hr false .empty).group.inLoop⟩
    refine expression.bind_flat fun container hc => scope (fun s' hl hd => ?_) ?_
    · simp only [Scope.bufferTemp, Scope.slotCount, hl, hd]
    · exact hg.map fun body ⟨fs, hb, hf⟩ => hb ▸ .loop hh hc hf

end

-- What a node, a group and the children of a conditional compile to. The induction is on the tree.
mutual

theorem settles_node (defaults : LoopNames) (s : Scope) : (n : Node) →
    Settles s (n.reach s.depth) n.faults (node defaults n) (Emits defaults s n)
  | .text t => .pure .text
  | .tag kind content children => by
    simp only [node]
    split
    case h_1 =>
      simpa [Node.reach, Node.faults] using Settles.substitution.map fun _ => .substitution
    case h_2 =>
      have h := Settles.conditional content (collects_branches defaults
        (Node.source (.tag "if" content children)) s children)
      simpa [Node.reach, Node.faults] using h
    case h_3 =>
      have h := Settles.loop (Node.source (.tag "each" content children)) content s
        fun s => collects_nodes defaults s children
      simpa [Node.reach, Node.faults] using h
    case h_4 => simpa [Node.reach, Node.faults] using Settles.invocation.map fun _ => .invocation
    case h_5 => exact .fail
    case h_6 =>
      have hf : (Node.tag kind content children).faults =
          [⟨.unknownKind kind, Node.source (.tag kind content children)⟩] := by
        simp only [Node.faults]
      rw [hf]
      exact .fail

theorem collects_nodes (defaults : LoopNames) (s : Scope) : (ns : List Node) →
    Collects defaults s ns
  | [] => by
    refine ⟨.ok [], .ok rfl .nil, fun p code => ?_⟩
    rw [List.isEmpty_nil, Bool.not_true, Bool.or_false]
    exact Runs.pure
  | n :: ns => .cons (settles_node defaults s n) (collects_nodes defaults s ns)

theorem collects_branches (defaults : LoopNames) (directive : String) (s : Scope) :
    (ns : List Node) → CollectsBranches defaults directive s ns
  | [] => ⟨.ok ([], []), id, .ok rfl .nil, fun _ _ => Runs.pure⟩
  | n :: ns => by
    have hn := settles_node defaults s n
    have hs := collects_branches defaults directive s ns
    match n with
    | .text t => exact .sibling rfl hn hs
    | .tag kind content children =>
      by_cases hk : kind = "else"
      case pos => exact hk ▸ .otherwise (collects_nodes defaults s children) hs
      case neg => exact .sibling (by simpa [Node.isElse] using hk) hn hs

end

-- What a compiled template is put together from.
theorem exists_emitsAll {defaults : LoopNames} {tree : List Node} {program : Program}
    (h : compile defaults tree = .ok program) :
    ∃ fs, EmitsAll defaults .empty tree fs ∧ program.body = assemble fs := by
  have ⟨r, ho, hr⟩ := collects_nodes defaults .empty tree
  have ⟨c, hc, _⟩ := (hr false .empty).group ⟨.empty, false⟩ ⟨rfl, rfl⟩ rfl
  simp only [compile, hc] at h
  cases ho <;> simp only [Except.map, reduceCtorEq, Except.ok.injEq] at h
  case ok fs _ hf _ => exact ⟨fs, hf, h ▸ rfl⟩

end Compile
end Stencil
