import Stencil.Compile.Basic

-- What a template compiles to, read off its tree. There is no state here: where a node stands is
-- told by the scope alone, and the parts of a group are put together once all of them are there.
namespace Stencil.Compile

-- The code of a group after one more part. Nothing is pending before the first one.
def Fragment.after (pending : Bool) (code : Code) (fragment : Fragment) : Code :=
  if pending then join code fragment.code
  else
    match fragment with
    | .text code => code
    | .value code => .concat .empty code

def assembleFrom (pending : Bool) (code : Code) : List Fragment → Code
  | [] => code
  | f :: fs => assembleFrom true (f.after pending code) fs

def assemble (fs : List Fragment) : Code :=
  assembleFrom false .empty fs

theorem assembleFrom_append (pending : Bool) (code : Code) (fs gs : List Fragment) :
    assembleFrom pending code (fs ++ gs) =
      assembleFrom (pending || !fs.isEmpty) (assembleFrom pending code fs) gs := by
  induction fs generalizing pending code
  case nil => simp [assembleFrom]
  case cons f fs hi => simp [assembleFrom, hi]

theorem branches_cons {defaults : LoopNames} {directive : String} {n : Node} {ns : List Node}
    {code : Code} (h : n.isElse = false) :
    branches defaults directive (n :: ns) code = (do
      let fragment ← node defaults n
      branches defaults directive ns (← append code fragment)) := by
  cases n <;> simp_all [branches, Node.isElse]

-- The code of the expression that a text spells.
def Spells (s : Scope) (cs : List Char) (code : Code) : Prop :=
  ∃ e, Expr.read cs = .ok e ∧ code = e.toCode s

inductive Passes (s : Scope) : Code → List (List Char) → Code → Prop
  | nil {code} : Passes s code [] code
  | cons {piece pieces code callee result} :
    Spells s (trim piece) callee → Passes s (.call callee [code]) pieces result →
    Passes s code (piece :: pieces) result

inductive Substitutes (s : Scope) (content : List Char) : Code → Prop
  | intro {base pieces value code} :
    splitOutside ['=', '>'] content = base :: pieces → Spells s (trim base) value →
    Passes s (.dethunk s.valueTemp value) pieces code → Substitutes s content code

def Supplies (s : Scope) (missing : Code) : Option (List Char) → Code → Prop
  | some cs, code => Spells s cs code
  | none, code => code = missing

inductive Invokes (s : Scope) (content : List Char) : Code → Prop
  | intro {header d o selector} :
    TmplHeader.read content = .ok header → Supplies s (passedData s) header.data d →
    Supplies s .options header.options o → Spells s header.selector selector →
    Invokes s content (.invoke d o selector (ownName selector))

-- The condition of a branch after the first. Only the last branch may do without one.
inductive Distinguishes (s : Scope) (content : List Char) (isLast : Bool) : Option Code → Prop
  | condition {cs test} :
    IfHeader.elseCondition? content = some cs → Spells s cs test →
    Distinguishes s content isLast (some test)
  | always :
    IfHeader.elseCondition? content = none → isLast = true →
    Distinguishes s content isLast none

-- The fragments of nodes in a scope. Those of a conditional's children belong to its first branch
-- up to the first `else`, and the branches after it have their own code.
mutual

inductive Emits (defaults : LoopNames) : Scope → Node → Fragment → Prop
  | text {s t} : Emits defaults s (.text t) (.text (.text t))
  | substitution {s content children code} :
    Substitutes s content.toList code →
    Emits defaults s (.tag "=" content children) (.value code)
  | conditional {s content children cs test fs arms} :
    IfHeader.condition? content.toList = some cs → Spells s cs test →
    EmitsBranches defaults s children fs arms →
    Emits defaults s (.tag "if" content children)
      (.text (choose (⟨some test, assemble fs⟩ :: arms)))
  | loop {s content children header container fs} :
    EachHeader.read defaults content.toList = .ok header →
    Spells s header.container container →
    EmitsAll defaults (s.push header.names).enter children fs →
    Emits defaults s (.tag "each" content children)
      (.text (.each s.bufferTemp s.slotCount header.names.key header.names.value container
        (assemble fs)))
  | invocation {s content children code} :
    Invokes s content.toList code → Emits defaults s (.tag "tmpl" content children) (.text code)

inductive EmitsAll (defaults : LoopNames) : Scope → List Node → List Fragment → Prop
  | nil {s} : EmitsAll defaults s [] []
  | cons {s n ns f fs} :
    Emits defaults s n f → EmitsAll defaults s ns fs → EmitsAll defaults s (n :: ns) (f :: fs)

inductive EmitsBranches (defaults : LoopNames) :
    Scope → List Node → List Fragment → List Arm → Prop
  | nil {s} : EmitsBranches defaults s [] [] []
  | sibling {s n ns f fs arms} :
    n.isElse = false → Emits defaults s n f → EmitsBranches defaults s ns fs arms →
    EmitsBranches defaults s (n :: ns) (f :: fs) arms
  | otherwise {s content children ns test fs gs arms} :
    Distinguishes s content.toList (!ns.any Node.isElse) test →
    EmitsAll defaults s children gs → EmitsBranches defaults s ns fs arms →
    EmitsBranches defaults s (.tag "else" content children :: ns) []
      (⟨test, assemble (gs ++ fs)⟩ :: arms)

end

variable {defaults : LoopNames} {s : Scope}

theorem EmitsAll.isEmpty_eq {ns fs} : EmitsAll defaults s ns fs → fs.isEmpty = ns.isEmpty
  | .nil | .cons .. => rfl

theorem EmitsBranches.arms_eq_nil {ns fs arms} (h : ns.any Node.isElse = false) :
    EmitsBranches defaults s ns fs arms → arms = []
  | .nil => rfl
  | .sibling _ _ hb => hb.arms_eq_nil (by simp_all)
  | .otherwise .. => by simp [Node.isElse] at h

theorem Emits.of_conditional {content : String} {ns : List Node} {f : Fragment}
    (h : Emits defaults s (.tag "if" content ns) f) :
    ∃ cs test fs arms, IfHeader.condition? content.toList = some cs ∧ Spells s cs test ∧
      EmitsBranches defaults s ns fs arms ∧
      f = .text (choose (⟨some test, assemble fs⟩ :: arms)) := by
  generalize hn : Node.tag "if" content ns = n at h
  cases h <;> simp only [Node.tag.injEq, String.reduceEq, reduceCtorEq, false_and, true_and] at hn
  case conditional hc ht hb =>
    obtain ⟨rfl, rfl⟩ := hn
    exact ⟨_, _, _, _, hc, ht, hb, rfl⟩

-- A node has one fragment in a scope.
section

variable {c c' : Code} {cs : List Char}

theorem Spells.unique (h : Spells s cs c) (h' : Spells s cs c') : c = c' := by
  have ⟨e, he, hc⟩ := h
  have ⟨e', he', hc'⟩ := h'
  cases he.symm.trans he'
  exact hc.trans hc'.symm

theorem Passes.unique {code : Code} {pieces : List (List Char)} (h : Passes s code pieces c)
    (h' : Passes s code pieces c') : c = c' := by
  induction h <;> cases h'
  case nil => rfl
  case cons hp _ hi _ hp' h' => exact hi (hp.unique hp' ▸ h')

theorem Substitutes.unique (h : Substitutes s cs c) (h' : Substitutes s cs c') : c = c' := by
  have ⟨hs, hv, hp⟩ := h
  have ⟨hs', hv', hp'⟩ := h'
  cases hs.symm.trans hs'
  exact hp.unique (hv.unique hv' ▸ hp')

theorem Supplies.unique {missing : Code} {given : Option (List Char)}
    (h : Supplies s missing given c) (h' : Supplies s missing given c') : c = c' := by
  cases given
  case none => exact h.trans h'.symm
  case some => exact Spells.unique h h'

theorem Invokes.unique (h : Invokes s cs c) (h' : Invokes s cs c') : c = c' := by
  have ⟨hh, hd, ho, hs⟩ := h
  have ⟨hh', hd', ho', hs'⟩ := h'
  cases hh.symm.trans hh'
  rw [hd.unique hd', ho.unique ho', hs.unique hs']

theorem Distinguishes.unique {isLast : Bool} {test test' : Option Code}
    (h : Distinguishes s cs isLast test) (h' : Distinguishes s cs isLast test') : test = test' := by
  cases h <;> cases h'
  case condition.condition hc hs _ _ hc' hs' =>
    cases hc.symm.trans hc'
    rw [hs.unique hs']
  case condition.always hc _ hc' _ => cases hc.symm.trans hc'
  case always.condition hc _ _ _ hc' _ => cases hc.symm.trans hc'
  case always.always => rfl

end

-- The induction is on the first derivation. The second one is of the same node, but that is told by
-- an equation, since kinds are texts and cannot be matched on.
mutual

theorem Emits.unique {defaults s n n' f f'} (h : Emits defaults s n f)
    (h' : Emits defaults s n' f') (hn : n = n') : f = f' := by
  cases h <;> cases h' <;>
    simp only [Node.text.injEq, Node.tag.injEq, String.reduceEq, reduceCtorEq, false_and,
      true_and] at hn
  case text.text => rw [hn]
  case substitution.substitution h _ _ _ h' => rw [h.unique (hn.1 ▸ h')]
  case conditional.conditional hc ht hb _ _ _ _ _ _ hc' ht' hb' =>
    have ⟨hn, hs⟩ := hn
    subst hn hs
    cases hc.symm.trans hc'
    have ⟨hf, ha⟩ := hb.unique hb'
    rw [ht.unique ht', hf, ha]
  case loop.loop hh hc hb _ _ _ _ _ hh' hc' hb' =>
    have ⟨hn, hs⟩ := hn
    subst hn hs
    cases hh.symm.trans hh'
    rw [hc.unique hc', hb.unique hb']
  case invocation.invocation h _ _ _ h' => rw [h.unique (hn.1 ▸ h')]

theorem EmitsAll.unique {defaults s ns fs fs'} :
    EmitsAll defaults s ns fs → EmitsAll defaults s ns fs' → fs = fs'
  | .nil, .nil => rfl
  | .cons h hf, .cons h' hf' => by rw [h.unique h' rfl, hf.unique hf']

theorem EmitsBranches.unique {defaults s ns fs fs' arms arms'} :
    EmitsBranches defaults s ns fs arms → EmitsBranches defaults s ns fs' arms' →
    fs = fs' ∧ arms = arms'
  | .nil, .nil => ⟨rfl, rfl⟩
  | .sibling _ h hb, .sibling _ h' hb' => by
    have ⟨hf, ha⟩ := hb.unique hb'
    exact ⟨by rw [h.unique h' rfl, hf], ha⟩
  | .otherwise ht hg hb, .otherwise ht' hg' hb' => by
    have ⟨hf, ha⟩ := hb.unique hb'
    exact ⟨rfl, by rw [ht.unique ht', hg.unique hg', hf, ha]⟩

end

end Stencil.Compile
