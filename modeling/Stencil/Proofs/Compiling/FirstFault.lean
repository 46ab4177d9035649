import Stencil.Proofs.Compiling.Outcome

namespace Stencil

def failure? {ε α : Type} : Except ε α → Option ε
  | .ok _ => none
  | .error e => some e

namespace Compile

variable {α : Type} {s : Scope} {k : Nat} {x : Compile α} {faults : List CompileError}
  {R : α → Prop}

theorem Outcome.failure?_eq {r : Except CompileError α} (h : Outcome faults R r) :
    failure? r = faults.head? := by
  cases h
  case ok he _ => rw [he]; rfl
  case error he => exact he.symm

theorem Runs.fst_eq {p q : Bool} {r : Except CompileError α} {c : Context} (h : Runs s k p x r q)
    (hc : c.Within s) (hp : c.pending = p) : (x c).1 = r := by
  have ⟨c', hx, _⟩ := h c hc hp
  rw [hx]

theorem failure?_group (defaults : LoopNames) (ns : List Node) (c : Context) :
    failure? (group (nodes defaults ns .empty) c).1 = (Node.faultsAll ns).head? := by
  have ⟨r, ho, hr⟩ := collects_nodes defaults c.scope ns
  rw [(hr false .empty).group.fst_eq ⟨rfl, rfl⟩ rfl, ←ho.failure?_eq]
  cases r <;> rfl

end Compile

-- A template fails to compile with the first of its faults, whatever its loops bind by default. So
-- does a part of it, wherever it stands.
theorem failure?_compile :
    (∀ defaults tree, failure? (compile defaults tree) = (Node.faultsAll tree).head?) ∧
    ∀ defaults context,
      (∀ ns, failure? (Compile.group (Compile.nodes defaults ns .empty) context).1 =
        (Node.faultsAll ns).head?) ∧
      ∀ n, failure? (Compile.node defaults n context).1 = n.faults.head? := by
  refine ⟨fun defaults tree => ?_, fun defaults context => ⟨fun ns => ?_, fun n => ?_⟩⟩
  · rw [←Compile.failure?_group defaults tree ⟨.empty, false⟩]
    unfold compile
    split <;> simp_all [failure?]
  · exact Compile.failure?_group defaults ns context
  · have ⟨r, ho, hr⟩ := Compile.settles_node defaults context.scope n
    rw [(hr context.pending).fst_eq ⟨rfl, rfl⟩ rfl, ho.failure?_eq]

end Stencil
