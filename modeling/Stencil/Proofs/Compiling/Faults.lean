import Stencil.Compile.Basic

-- What is wrong with a template, in the order in which its directives are looked at. Neither the
-- names of loop variables nor the place of a directive play a part in it.
namespace Stencil.Node

def sourceFaults (directive : String) (cs : List Char) : List CompileError :=
  match Expr.read cs with
  | .ok _ => []
  | .error e => [⟨.expression e, directive⟩]

-- A piece of a substitution, which has a fault of its own if it is blank.
def pieceFaults (blank : CompileFault) (directive : String) (piece : List Char) :
    List CompileError :=
  if trim piece = [] then [⟨blank, directive⟩] else sourceFaults directive (trim piece)

def substitutionFaults (directive : String) (content : List Char) : List CompileError :=
  match splitOutside ['=', '>'] content with
  | [] => [⟨.emptySubstitution, directive⟩]
  | base :: pieces =>
    pieceFaults .emptySubstitution directive base
      ++ pieces.flatMap (pieceFaults .emptyAccessor directive)

def argumentFaults (directive : String) : Option (List Char) → List CompileError
  | some cs => sourceFaults directive cs
  | none => []

def invocationFaults (directive : String) (content : List Char) : List CompileError :=
  match TmplHeader.read content with
  | .error fault => [⟨fault, directive⟩]
  | .ok header =>
    argumentFaults directive header.data ++ argumentFaults directive header.options
      ++ sourceFaults directive header.selector

def loopFaults (directive : String) (content : List Char) : List CompileError :=
  match (EachHeader.read .default content).map EachHeader.container with
  | .error fault => [⟨fault, directive⟩]
  | .ok container => sourceFaults directive container

def conditionFaults (directive : String) (content : List Char) : List CompileError :=
  match IfHeader.condition? content with
  | some cs => sourceFaults directive cs
  | none => [⟨.missingCondition, directive⟩]

def elseFaults (directive : String) (content : List Char) (isLast : Bool) : List CompileError :=
  match IfHeader.elseCondition? content with
  | some cs => sourceFaults directive cs
  | none => if isLast then [] else [⟨.elseNotLast, directive⟩]

mutual

def faults : Node → List CompileError
  | .text _ => []
  | .tag kind content children =>
    let directive := (Node.tag kind content children).source
    match kind with
    | "=" => substitutionFaults directive content.toList
    | "if" => conditionFaults directive content.toList ++ branchFaults directive children
    | "each" => loopFaults directive content.toList ++ faultsAll children
    | "tmpl" => invocationFaults directive content.toList
    | "else" => [⟨.elseOutside, directive⟩]
    | kind => [⟨.unknownKind kind, directive⟩]

def faultsAll : List Node → List CompileError
  | [] => []
  | n :: ns => n.faults ++ faultsAll ns

-- The children of the conditional `directive`. An `else` among them starts a branch, whose
-- condition comes before its own children and the siblings up to the next `else`.
def branchFaults (directive : String) : List Node → List CompileError
  | [] => []
  | .tag "else" content children :: ns =>
    elseFaults directive content.toList (!ns.any Node.isElse) ++ faultsAll children
      ++ branchFaults directive ns
  | n :: ns => n.faults ++ branchFaults directive ns

end

theorem branchFaults_cons {n : Node} (h : n.isElse = false) (directive : String)
    (ns : List Node) :
    branchFaults directive (n :: ns) = n.faults ++ branchFaults directive ns := by
  cases n <;> simp_all [branchFaults, isElse]

theorem branchFaults_append {ns : List Node} (h : ns.any isElse = false) (directive : String)
    (ns' : List Node) :
    branchFaults directive (ns ++ ns') = faultsAll ns ++ branchFaults directive ns' := by
  induction ns
  case nil => rfl
  case cons n ns hi =>
    simp only [List.any_cons, Bool.or_eq_false_iff] at h
    rw [List.cons_append, branchFaults_cons h.1, hi h.2, faultsAll, List.append_assoc]

-- What is wrong does not depend on the directive that is shown for it.
theorem fault_sourceFaults (directive directive' : String) (cs : List Char) :
    (sourceFaults directive cs).map (·.fault) = (sourceFaults directive' cs).map (·.fault) := by
  unfold sourceFaults
  split <;> rfl

theorem fault_elseFaults (directive directive' : String) (cs : List Char) (isLast : Bool) :
    (elseFaults directive cs isLast).map (·.fault) =
      (elseFaults directive' cs isLast).map (·.fault) := by
  unfold elseFaults
  split
  case h_1 => exact fault_sourceFaults directive directive' _
  case h_2 => split <;> rfl

theorem fault_conditionFaults (directive directive' : String) (cs : List Char) :
    (conditionFaults directive cs).map (·.fault) =
      (conditionFaults directive' cs).map (·.fault) := by
  unfold conditionFaults
  split
  case h_1 => exact fault_sourceFaults directive directive' _
  case h_2 => rfl

theorem fault_branchFaults (directive directive' : String) (ns : List Node) :
    (branchFaults directive ns).map (·.fault) = (branchFaults directive' ns).map (·.fault) := by
  induction ns
  case nil => rfl
  case cons n ns hi =>
    unfold branchFaults
    split
    case h_1 h => cases h
    case h_2 h =>
      cases h
      simp only [List.map_append, fault_elseFaults directive directive', hi]
    case h_3 h =>
      cases h
      simp only [List.map_append, hi]

end Stencil.Node
