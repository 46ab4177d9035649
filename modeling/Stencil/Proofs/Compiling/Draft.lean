import Stencil.Proofs.Compiling.Outcome

-- A template whose directives have been read, but whose names have not been looked up. What it
-- compiles to is its draft with each name replaced by what it stands for in the loops around it.
namespace Stencil

inductive Draft
  | text (s : String)
  | expression (e : Expr)
  -- What a sub-template is given if it is given no data or no options.
  | passedData
  | options
  | concat (lhs rhs : Draft)
  | cond (test consequent alternate : Draft)
  | pass (callee argument : Draft)
  | dethunk (value : Draft)
  | each (names : LoopNames) (container body : Draft)
  | invoke (data options selector : Draft)

def Scope.inside (loops : List LoopNames) : Scope :=
  ⟨loops, loops.length, loops.length⟩

namespace Draft

-- The code of a draft inside of loops, the innermost one first.
def code (loops : List LoopNames) : Draft → Code
  | text s => .text s
  | expression e => e.toCode (.inside loops)
  | passedData => Compile.passedData (.inside loops)
  | options => .options
  | concat lhs rhs => .concat (lhs.code loops) (rhs.code loops)
  | cond test consequent alternate =>
    .cond (test.code loops) (consequent.code loops) (alternate.code loops)
  | pass callee argument => .call (callee.code loops) [argument.code loops]
  | dethunk value => .dethunk (Scope.inside loops).valueTemp (value.code loops)
  | each names container body =>
    .each (Scope.inside loops).bufferTemp (Scope.inside loops).slotCount names.key names.value
      (container.code loops) (body.code (names :: loops))
  | invoke d o selector =>
    .invoke (d.code loops) (o.code loops) (selector.code loops)
      (Compile.ownName (selector.code loops))

def read (cs : List Char) : Option Draft :=
  (Expr.read cs).toOption.map expression

def passes (d : Draft) : List (List Char) → Option Draft
  | [] => some d
  | piece :: pieces => do passes (.pass (← read (trim piece)) d) pieces

def substitution (content : List Char) : Option Draft :=
  match splitOutside ['=', '>'] content with
  | [] => none
  | base :: pieces => do passes (.dethunk (← read (trim base))) pieces

def argument (missing : Draft) : Option (List Char) → Option Draft
  | some cs => read cs
  | none => some missing

def invocation (content : List Char) : Option Draft := do
  let header ← (TmplHeader.read content).toOption
  let d ← argument .passedData header.data
  let o ← argument .options header.options
  return .invoke d o (← read header.selector)

def join : Draft → Draft → Draft
  | text s, text t => .text (s ++ t)
  | lhs, rhs => .concat lhs rhs

-- The first part of a group. Only a substitution may give another value than a text.
def start : Draft → Draft
  | d@(dethunk _) | d@(pass _ _) => .concat (.text "") d
  | d => d

def assemble : List Draft → Draft
  | [] => .text ""
  | d :: ds => ds.foldl join d.start

def choose : List (Option Draft × Draft) → Draft
  | [] => .text ""
  | (some test, body) :: arms => .cond test body (choose arms)
  | (none, body) :: _ => body

def elseTest (content : List Char) : Option (Option Draft) :=
  match IfHeader.elseCondition? content with
  | some cs => (read cs).map some
  | none => some none

mutual

def ofNode (defaults : LoopNames) : Node → Option Draft
  | .text s => some (.text s)
  | .tag kind content children =>
    match kind with
    | "=" => substitution content.toList
    | "if" => do
      let test ← (IfHeader.condition? content.toList).bind read
      let (body, arms) ← ofBranches defaults children
      return choose ((some test, assemble body) :: arms)
    | "each" => do
      let header ← (EachHeader.read defaults content.toList).toOption
      let container ← read header.container
      return .each header.names container (assemble (← ofNodes defaults children))
    | "tmpl" => invocation content.toList
    | _ => none

def ofNodes (defaults : LoopNames) : List Node → Option (List Draft)
  | [] => some []
  | n :: ns => do return (← ofNode defaults n) :: (← ofNodes defaults ns)

-- The drafts up to the first `else`, and the branches from there on.
def ofBranches (defaults : LoopNames) :
    List Node → Option (List Draft × List (Option Draft × Draft))
  | [] => some ([], [])
  | .tag "else" content children :: ns => do
    let test ← elseTest content.toList
    let ds ← ofNodes defaults children
    let (ds', arms) ← ofBranches defaults ns
    return ([], (test, assemble (ds ++ ds')) :: arms)
  | n :: ns => do
    let d ← ofNode defaults n
    let (ds, arms) ← ofBranches defaults ns
    return (d :: ds, arms)

end

def ofTree (defaults : LoopNames) (tree : List Node) : Option Draft :=
  (ofNodes defaults tree).map assemble

theorem ofBranches_cons {defaults : LoopNames} {n : Node} {ns : List Node}
    (h : n.isElse = false) :
    ofBranches defaults (n :: ns) = (do
      let d ← ofNode defaults n
      let (ds, arms) ← ofBranches defaults ns
      return (d :: ds, arms)) := by
  cases n <;> simp_all [ofBranches, Node.isElse]

variable {loops : List LoopNames}

-- The fragment that a node with the draft compiles to.
def fragment (loops : List LoopNames) : Draft → Compile.Fragment
  | d@(dethunk _) | d@(pass _ _) => .value (d.code loops)
  | d => .text (d.code loops)

def arm (loops : List LoopNames) (a : Option Draft × Draft) : Compile.Arm :=
  ⟨a.1.map (code loops), a.2.code loops⟩

theorem code_fragment (d : Draft) : (d.fragment loops).code = d.code loops := by
  cases d <;> rfl

theorem code_start (d : Draft) (c : Code) :
    d.start.code loops = (d.fragment loops).after false c := by
  cases d <;> rfl

theorem eq_text_of_code {d : Draft} {s : String} (h : d.code loops = .text s) : d = .text s := by
  cases d <;> simp only [code, Code.concat, reduceCtorEq] at h
  case text t => simpa using h
  case expression e =>
    cases e <;> simp [Expr.toCode, Scope.resolve] at h
    grind
  case passedData =>
    unfold Compile.passedData at h
    split at h <;> contradiction

theorem code_join (d d' : Draft) :
    (d.join d').code loops = Compile.join (d.code loops) (d'.code loops) := by
  unfold Compile.join
  split
  case h_1 h h' =>
    rw [eq_text_of_code h, eq_text_of_code h']
    rfl
  case h_2 h =>
    unfold join
    split
    case h_1 => exact absurd rfl (h _ _ rfl)
    case h_2 => rfl

theorem code_foldl_join (d : Draft) (ds : List Draft) :
    (ds.foldl join d).code loops =
      Compile.assembleFrom true (d.code loops) (ds.map (fragment loops)) := by
  induction ds generalizing d
  case nil => rfl
  case cons d' ds hi =>
    rw [List.foldl_cons, hi, code_join, ←code_fragment d']
    rfl

theorem code_assemble (ds : List Draft) :
    (assemble ds).code loops = Compile.assemble (ds.map (fragment loops)) := by
  cases ds
  case nil => rfl
  case cons d ds =>
    rw [assemble, code_foldl_join, code_start d .empty]
    rfl

theorem code_choose (arms : List (Option Draft × Draft)) :
    (choose arms).code loops = Compile.choose (arms.map (arm loops)) := by
  induction arms
  case nil => rfl
  case cons a arms hi =>
    match a with
    | (some test, body) => simp [choose, code, Compile.choose, arm, hi]
    | (none, body) => rfl

end Draft

namespace Compile

open Draft

variable {s : Scope} {d : Draft} {c c' : Code} {cs : List Char}

theorem Spells.draft (h : Spells s cs c) : ∃ d, Draft.read cs = some d ∧ d.code s.loops = c := by
  have ⟨e, he, hc⟩ := h
  refine ⟨.expression e, by simp [Draft.read, he, Except.toOption], ?_⟩
  have hl : (Scope.inside s.loops).loops = s.loops := rfl
  rw [hc, code, e.toCode_congr hl]

theorem Passes.draft {pieces : List (List Char)} (h : Passes s c pieces c')
    (hd : d.fragment s.loops = .value c) :
    ∃ d', passes d pieces = some d' ∧ d'.fragment s.loops = .value c' := by
  induction h generalizing d
  case nil => exact ⟨d, rfl, hd⟩
  case cons c₁ c₂ _ hp _ hi =>
    have ⟨callee, hr, hc⟩ := hp.draft
    have hd : d.code s.loops = c₁ := (code_fragment d).symm.trans (congrArg Fragment.code hd)
    have hp : (Draft.pass callee d).fragment s.loops = .value (.call c₂ [c₁]) := by
      rw [fragment, code, hc, hd]
    have ⟨d', hd', hc'⟩ := hi hp
    exact ⟨d', by simp [passes, hr, hd'], hc'⟩

theorem Substitutes.draft (hs : s.loops.length = s.depth) (h : Substitutes s cs c) :
    ∃ d, Draft.substitution cs = some d ∧ d.fragment s.loops = .value c := by
  have ⟨hb, hv, hp⟩ := h
  have ⟨value, hr, hc⟩ := hv.draft
  have ⟨d, hd, hf⟩ := hp.draft (d := .dethunk value) (by
    simp [fragment, code, hc, Scope.valueTemp, Scope.inside, hs])
  exact ⟨d, by simp [Draft.substitution, hb, hr, hd], hf⟩

theorem Supplies.draft {given : Option (List Char)} (h : Supplies s c given c')
    (hd : d.code s.loops = c) : ∃ d', Draft.argument d given = some d' ∧ d'.code s.loops = c' := by
  cases given
  case none => exact ⟨d, rfl, hd.trans h.symm⟩
  case some => exact Spells.draft h

theorem Invokes.draft (h : Invokes s cs c) :
    ∃ d, Draft.invocation cs = some d ∧ d.fragment s.loops = .text c := by
  have ⟨hh, hd, ho, hn⟩ := h
  have ⟨d, hd, hdc⟩ := hd.draft (d := .passedData) rfl
  have ⟨o, ho, hoc⟩ := ho.draft (d := .options) rfl
  have ⟨selector, hn, hnc⟩ := hn.draft
  refine ⟨.invoke d o selector, ?_, ?_⟩
  · simp [Draft.invocation, hh, Except.toOption, hd, ho, hn]
  · simp [fragment, code, hdc, hoc, hnc]

theorem Distinguishes.draft {isLast : Bool} {test : Option Code}
    (h : Distinguishes s cs isLast test) :
    ∃ t, Draft.elseTest cs = some t ∧ t.map (code s.loops) = test := by
  cases h
  case condition hc ht =>
    have ⟨d, hd, hdc⟩ := ht.draft
    exact ⟨some d, by simp [Draft.elseTest, hc, hd], by simp [hdc]⟩
  case always hc _ => exact ⟨none, by simp [Draft.elseTest, hc], rfl⟩

-- The induction is on the derivation of the code. The scope is needed for the depth that the
-- temporaries have, which is that of the loops alone in a draft.
mutual

theorem Emits.draft {defaults s n f} (hs : s.loops.length = s.depth) : Emits defaults s n f →
    ∃ d, ofNode defaults n = some d ∧ d.fragment s.loops = f
  | .text => ⟨_, by rw [ofNode], rfl⟩
  | .substitution h => by
    rw [ofNode]
    exact h.draft hs
  | .invocation h => by
    rw [ofNode]
    exact h.draft
  | .conditional hc ht hb => by
    have ⟨test, hr, hrc⟩ := ht.draft
    have ⟨ds, arms, hd, hdc, hac⟩ := hb.draft hs
    refine ⟨.choose ((some test, .assemble ds) :: arms), by simp [ofNode, hc, hr, hd], ?_⟩
    have h : (Draft.choose ((some test, .assemble ds) :: arms)).code s.loops = _ := code_choose _
    rw [List.map_cons, hac, arm, code_assemble, hdc, Option.map_some, hrc] at h
    exact congrArg Fragment.text h
  | @Emits.loop _ _ _ _ header _ _ hh hc hb => by
    have ⟨container, hr, hrc⟩ := hc.draft
    have ⟨ds, hd, hdc⟩ := hb.draft (congrArg (· + 1) hs)
    refine ⟨.each header.names container (.assemble ds), ?_, ?_⟩
    · simp [ofNode, hh, Except.toOption, hr, hd]
    · have h : (Draft.assemble ds).code (header.names :: s.loops) = _ := code_assemble ds
      simp only [fragment, code, hrc, h, Scope.bufferTemp, Scope.slotCount, Scope.inside, hs]
      rw [←hdc]
      rfl

theorem EmitsAll.draft {defaults s ns fs} (hs : s.loops.length = s.depth) :
    EmitsAll defaults s ns fs → ∃ ds, ofNodes defaults ns = some ds ∧ ds.map (fragment s.loops) = fs
  | .nil => ⟨[], by rw [ofNodes], rfl⟩
  | .cons h hf => by
    have ⟨d, hd, hdc⟩ := h.draft hs
    have ⟨ds, hds, hdsc⟩ := hf.draft hs
    exact ⟨d :: ds, by simp [ofNodes, hd, hds], by simp [hdc, hdsc]⟩

theorem EmitsBranches.draft {defaults s ns fs arms} (hs : s.loops.length = s.depth) :
    EmitsBranches defaults s ns fs arms → ∃ ds as, ofBranches defaults ns = some (ds, as) ∧
      ds.map (fragment s.loops) = fs ∧ as.map (arm s.loops) = arms
  | .nil => ⟨[], [], by rw [ofBranches], rfl, rfl⟩
  | .sibling hn h hb => by
    have ⟨d, hd, hdc⟩ := h.draft hs
    have ⟨ds, as, hb, hdsc, hac⟩ := hb.draft hs
    exact ⟨d :: ds, as, by simp [ofBranches_cons hn, hd, hb], by simp [hdc, hdsc], hac⟩
  | .otherwise ht hg hb => by
    have ⟨test, hr, hrc⟩ := ht.draft
    have ⟨ds, hd, hdc⟩ := hg.draft hs
    have ⟨ds', as, hb, hdc', hac⟩ := hb.draft hs
    refine ⟨[], (test, .assemble (ds ++ ds')) :: as, by simp [ofBranches, hr, hd, hb], rfl, ?_⟩
    simp [arm, hrc, code_assemble, hdc, hdc', hac]

end

end Compile

-- A template that compiles has a draft, and compiles to what the draft stands for outside of loops.
theorem compile_draft {defaults : LoopNames} {tree : List Node} {program : Program}
    (h : compile defaults tree = .ok program) :
    ∃ d, Draft.ofTree defaults tree = some d ∧ d.code [] = program.body := by
  have ⟨fs, hf, hb⟩ := Compile.exists_emitsAll h
  have ⟨ds, hd, hdc⟩ := hf.draft rfl
  refine ⟨.assemble ds, by simp [Draft.ofTree, hd], ?_⟩
  rw [hb, Draft.code_assemble]
  exact congrArg Compile.assemble hdc

end Stencil
