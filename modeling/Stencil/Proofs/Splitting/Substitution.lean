import Stencil.Compile.Basic
import Stencil.Proofs.Splitting.Source

namespace Stencil

variable {directive : String} {cs : List Char} {e : Expr} {parts : List (List Char × Expr)}

theorem Expr.trim_eq_cons (h : Expr.read cs = .ok e) :
    ∃ c cs', trim cs = c :: cs' ∧ Expr.read (c :: cs') = .ok e := by
  have h := Expr.read_trim h
  cases ht : trim cs
  case nil =>
    rw [ht] at h
    cases h
  case cons c cs' => exact ⟨c, cs', rfl, ht ▸ h⟩

namespace Compile

-- The value of a piece of code, passed to one callee after the other.
def pipe (s : Scope) (code : Code) (callees : List Expr) : Code :=
  callees.foldl (fun code callee => .call (callee.toCode s) [code]) code

theorem expression_eq (h : Expr.read cs = .ok e) (context : Context) :
    expression directive cs context = (.ok (e.toCode context.scope), context) := by
  simp only [expression, h]
  rfl

theorem accessors_eq (h : ∀ part ∈ parts, Expr.read part.1 = .ok part.2) (code : Code)
    (context : Context) :
    accessors directive code (parts.map (·.1)) context =
      (.ok (pipe context.scope code (parts.map (·.2))), context) := by
  induction parts generalizing code
  case nil => rfl
  case cons part parts hi =>
    have ⟨_, _, ht, hr⟩ := Expr.trim_eq_cons (h part (.head _))
    simp only [List.map_cons, accessors, ht]
    rw [Act.bind_apply_ok (expression_eq hr context)]
    exact hi (fun part hm => h part (.tail _ hm)) _

theorem substitution_eq (he : Expr.read cs = .ok e)
    (h : ∀ part ∈ parts, Expr.read part.1 = .ok part.2) (context : Context)
    {content : List Char} (hs : splitOutside ['=', '>'] content = cs :: parts.map (·.1)) :
    substitution directive content context =
      (.ok (pipe context.scope (.dethunk context.scope.valueTemp (e.toCode context.scope))
        (parts.map (·.2))), context) := by
  have ⟨_, _, ht, hr⟩ := Expr.trim_eq_cons he
  simp only [substitution, hs, ht]
  rw [Act.bind_apply_ok (expression_eq hr context)]
  exact accessors_eq h _ context

end Compile

theorem split_join_sources (s₀ : List Char) (e₀ : Expr) (rest : List (List Char × Expr))
    (h₀ : Expr.read s₀ = .ok e₀) (h : ∀ part ∈ rest, Expr.read part.1 = .ok part.2) :
    let sources := s₀ :: rest.map (·.1)
    let arrows := ['=', '>'].intercalate sources
    splitOutside ['=', '>'] arrows = sources ∧
    splitOutside [','] ([','].intercalate sources) = sources ∧
    ∀ (defaults : LoopNames) (children : List Node) (context : Compile.Context),
      Compile.node defaults (.tag "=" (.ofList arrows) children) context =
        (.ok (.value (Compile.pipe context.scope
          (.dethunk context.scope.valueTemp (e₀.toCode context.scope)) (rest.map (·.2)))),
          context) := by
  intro sources arrows
  have hr : ∀ s ∈ sources, ∃ e, Expr.read s = .ok e := by
    intro s hm
    rcases List.mem_cons.mp hm with rfl | hm
    · exact ⟨e₀, h₀⟩
    · have ⟨part, hm, hp⟩ := List.mem_map.mp hm
      exact ⟨part.2, hp ▸ h part hm⟩
  have hs := Expr.splitOutside_sources (.inr rfl) (by simp [sources]) hr
  refine ⟨hs, Expr.splitOutside_sources (.inl rfl) (by simp [sources]) hr, ?_⟩
  intro defaults children context
  simp only [Compile.node, String.toList_ofList]
  rw [Act.bind_apply_ok (Compile.substitution_eq h₀ h context hs)]
  rfl

theorem split_join_sources_quoted :
    let base : Expr := .binary .ge (.name "x") (.literal (.string "=>,("))
    let callee : Expr := .call (.index (.name "f") (.literal (.string ","))) [.name "a", .name "b"]
    Expr.read "x >= '=>,('".toList = .ok base ∧
    Expr.read "f[','](a, b)".toList = .ok callee ∧
    splitOutside ['=', '>'] "x >= '=>,('=>f[','](a, b)".toList =
      ["x >= '=>,('".toList, "f[','](a, b)".toList] ∧
    splitOutside [','] "x >= '=>,(',f[','](a, b)".toList =
      ["x >= '=>,('".toList, "f[','](a, b)".toList] ∧
    Compile.node .default (.tag "=" "x >= '=>,('=>f[','](a, b)" []) ⟨.empty, false⟩ =
      (.ok (.value (.call (callee.toCode .empty)
        [.dethunk Scope.empty.valueTemp (base.toCode .empty)])), ⟨.empty, false⟩) := by
  intro base callee
  have hb : Expr.read "x >= '=>,('".toList = .ok base := rfl
  have hc : Expr.read "f[','](a, b)".toList = .ok callee := rfl
  have ⟨ha, hs, hn⟩ := split_join_sources _ base [("f[','](a, b)".toList, callee)] hb
    (List.forall_mem_singleton.mpr hc)
  exact ⟨hb, hc, ha, hs, hn .default [] ⟨.empty, false⟩⟩

end Stencil
