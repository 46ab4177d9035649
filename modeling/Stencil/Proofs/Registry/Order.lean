import Stencil.Compile.Basic
import Stencil.Proofs.Registry.Inserts
import Stencil.Render.Native
import Stencil.Render.Template

-- Templates find one another when they are rendered, not when they are compiled.
namespace Stencil

open Registry

variable {σ : Type}

-- A rendering sees of a registry what is registered under each name.
theorem Template.host_congr {r r' : Registry Template} (h : ∀ name, r.get? name = r'.get? name)
    (services : Services σ) (depth : Nat) : host services r depth = host services r' depth := by
  have hr (selector : Value) : r.resolve selector = r'.resolve selector := by
    simp only [resolve, select?, h]
  induction depth
  case zero => rfl
  case succ depth hi => simp only [host, hr, hi]

-- What a rendering starts from: the registered templates and, once it has been compiled, the entry.
structure Setup where
  registry : Registry Template
  entry : Option (Except CompileError Program)

namespace Setup

inductive Step
  -- Compiles a tree and registers it under a name, if it compiles.
  | register (name : String) (tree : List Node)
  | entry (tree : List Node)

def step (defaults : LoopNames) (s : Setup) : Step → Setup
  | .register name tree =>
    match compile defaults tree with
    | .ok p => { s with registry := s.registry.insert name (.compiled p) }
    | .error _ => s
  | .entry tree => { s with entry := some (compile defaults tree) }

def after (defaults : LoopNames) (steps : List Step) : Setup :=
  steps.foldl (step defaults) ⟨.empty, none⟩

-- The outcome of the entry, with sub-templates nested as deeply as the number says.
def render (s : Setup) (services : Services σ) (depth : Nat) (data options : Value) (store : σ) :
    Option (Except CompileError (Except RenderError String × σ)) :=
  s.entry.map (·.map fun p => p.apply (Template.host services s.registry depth) data options store)

-- Steps that register the parts and compile the entry, in some order.
def Arranges (entry : List Node) (parts : List (String × List Node)) (steps : List Step) : Prop :=
  steps.Perm (.entry entry :: parts.map fun (name, tree) => .register name tree)

def Step.template? (defaults : LoopNames) : Step → Option (String × Template)
  | register name tree => (compile defaults tree).toOption.map fun p => (name, .compiled p)
  | entry _ => none

def Step.entry? : Step → Option (List Node)
  | register _ _ => none
  | entry tree => some tree

variable {defaults : LoopNames} {tree : List Node} {parts : List (String × List Node)}
  {steps steps' : List Step}

theorem registry_after :
    (after defaults steps).registry =
      Registry.after (inserts (steps.filterMap (Step.template? defaults))) := by
  induction steps using List.reverseRecOn
  case nil => rfl
  case append_singleton steps s hi =>
    have ha : after defaults (steps ++ [s]) = step defaults (after defaults steps) s :=
      List.foldl_append
    rw [ha, List.filterMap_append]
    cases s
    case entry => rw [List.filterMap_cons_none rfl, List.filterMap_nil, List.append_nil, ←hi]; rfl
    case register name tree =>
      simp only [step]
      split
      case h_1 h =>
        simp [Step.template?, h, Except.toOption, inserts, after_concat, Change.apply, hi]
      case h_2 h => simp [Step.template?, h, Except.toOption, hi]

theorem entry_after :
    (after defaults steps).entry =
      (steps.filterMap Step.entry?).getLast?.map (compile defaults) := by
  induction steps using List.reverseRecOn
  case nil => rfl
  case append_singleton steps s hi =>
    have ha : after defaults (steps ++ [s]) = step defaults (after defaults steps) s :=
      List.foldl_append
    rw [ha, List.filterMap_append]
    cases s
    case entry => simp [step, Step.entry?]
    case register =>
      simp only [step, Step.entry?, List.filterMap_cons, List.filterMap_nil, List.append_nil, ←hi]
      split <;> rfl

namespace Arranges

variable (defaults)

theorem entry_eq (h : Arranges tree parts steps) :
    (after defaults steps).entry = some (compile defaults tree) := by
  have hp := h.filterMap Step.entry?
  have he : ((.entry tree :: parts.map fun (name, tree) => Step.register name tree).filterMap
      Step.entry?) = [tree] := by
    simp [Step.entry?, List.filterMap_map, Function.comp_def]
  rw [he, List.perm_singleton] at hp
  simp [entry_after, hp]

theorem render_eq (h : Arranges tree parts steps) (services : Services σ) (depth : Nat)
    (data options : Value) (store : σ) :
    (after defaults steps).render services depth data options store =
      some ((compile defaults tree).map fun p =>
        p.apply (Template.host services (after defaults steps).registry depth) data options
          store) := by
  simp [render, h.entry_eq defaults]

theorem names_sublist :
    (((parts.map fun (name, tree) => Step.register name tree).filterMap
      (Step.template? defaults)).map (·.1)).Sublist (parts.map (·.1)) := by
  induction parts
  case nil => exact .slnil
  case cons part parts hi =>
    simp only [List.map_cons, List.filterMap_cons, Step.template?]
    cases compile defaults part.2
    case error => exact hi.cons _
    case ok => exact hi.cons_cons _

theorem get?_eq (h : Arranges tree parts steps) (hn : (parts.map (·.1)).Nodup)
    (h' : Arranges tree parts steps') (name : String) :
    (after defaults steps).registry.get? name = (after defaults steps').registry.get? name := by
  have hs : ((steps.filterMap (Step.template? defaults)).map (·.1)).Nodup := by
    refine ((h.filterMap _).map _).nodup_iff.mpr ?_
    exact (names_sublist defaults).nodup hn
  rw [registry_after, registry_after]
  exact get?_after_perm ((h.trans h'.symm).filterMap _) hs

end Arranges
end Setup

-- After any changes, a selector stands for what was last registered under it, and the names are
-- those that something is registered under. Therefore, templates with names of their own may be
-- registered in any order, before the entry is compiled or after that.
theorem Registry.latest_wins_in_any_order :
    (∀ {α : Type} (changes : List (Change α)),
      let r := after changes
      (∀ selector x, r.resolve selector = .ok x ↔ Selects changes selector.text x) ∧
      (∀ selector e, r.resolve selector = .error e ↔
        e = .unknownTemplate selector.text ∧ ¬∃ x, Selects changes selector.text x) ∧
      r.names.Pairwise (· < ·) ∧
      (∀ name, name ∈ r.names ↔ ∃ x, Live changes name x) ∧
      r.names.length = r.size) ∧
    ∀ (defaults : LoopNames) (entry : List Node) (parts : List (String × List Node))
      (steps steps' : List Setup.Step),
      (parts.map (·.1)).Nodup → Setup.Arranges entry parts steps →
      Setup.Arranges entry parts steps' →
      ∀ {σ : Type} (services : Services σ) (depth : Nat) (data options : Value) (store : σ),
        let s := Setup.after defaults steps
        let s' := Setup.after defaults steps'
        (∃ outcome, s.render services depth data options store = some outcome ∧
          s'.render services depth data options store = some outcome) ∧
        ∀ selector,
          (Template.host services s.registry depth).invoke selector data options store =
            (Template.host services s'.registry depth).invoke selector data options store := by
  constructor
  case left =>
    intro α changes
    exact ⟨fun _ _ => resolve_after_eq_ok, fun _ _ => resolve_after_eq_error, pairwise_names_after,
      fun _ => mem_names_after, List.length_map _⟩
  case right =>
    intro defaults entry parts steps steps' hn h h' σ services depth data options store
    have hh := Template.host_congr (h.get?_eq defaults hn h') services depth
    have hr := h.render_eq defaults services depth data options store
    rw [hh] at hr
    refine ⟨⟨_, hr, h'.render_eq defaults services depth data options store⟩, fun selector => ?_⟩
    exact congrArg (fun host : Host σ => host.invoke selector data options store) hh

theorem Registry.latest_wins_in_any_order_nested :
    let entry : List Node := [.tag "tmpl" "'#a'" []]
    let a : List Node := [.text "A", .tag "tmpl" "b" []]
    let b : List Node := [.text "B"]
    let s := Setup.after .default [.register "b" b, .entry entry, .register "a" a]
    let s' := Setup.after .default [.entry entry, .register "a" a, .register "b" b]
    ∃ outcome,
      s.render Store.services 3 .null .null .start = some outcome ∧
      s'.render Store.services 3 .null .null .start = some outcome ∧
      outcome.toOption.bind (·.1.toOption) = some "AB" := by
  intro entry a b s s'
  have h : Setup.Arranges entry [("a", a), ("b", b)]
      [.register "b" b, .entry entry, .register "a" a] :=
    @List.perm_append_comm _ [Setup.Step.register "b" b] [.entry entry, .register "a" a]
  have ⟨⟨outcome, ho, ho'⟩, _⟩ := Registry.latest_wins_in_any_order.2 .default entry
    [("a", a), ("b", b)] _ _ (by decide) h (.refl _) Store.services 3 .null .null .start
  refine ⟨outcome, ho, ho', ?_⟩
  have hd : (s.render Store.services 3 .null .null .start).bind
      (·.toOption.bind (·.1.toOption)) = some "AB" := by
    decide +kernel
  rwa [show s.render Store.services 3 .null .null .start = some outcome from ho] at hd

end Stencil
