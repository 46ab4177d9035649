import Stencil.Render.Eval
import Stencil.Render.Registry

namespace Stencil

inductive Template
  | compiled (p : Program)
  -- Gives the same output for all data and options.
  | fixed (output : String)

namespace Template

variable {σ : Type}

def apply (t : Template) (host : Host σ) (data options : Value) (store : σ) :
    Except RenderError String × σ :=
  match t with
  | compiled p => p.apply host data options store
  | fixed output => (.ok output, store)

-- Templates of a registry call one another through it, at most as deeply as the number says.
def host (services : Services σ) (registry : Registry Template) : Nat → Host σ
  | 0 => { services with invoke := fun _ _ _ store => (.error .tooDeep, store) }
  | depth + 1 =>
    { services with
      invoke := fun selector data options store =>
        match registry.resolve selector with
        | .ok t => t.apply (host services registry depth) data options store
        | .error e => (.error e, store) }

def maxNesting : Nat :=
  10000

-- The output of a template that may call those of a registry.
def render (t : Template) (services : Services σ) (registry : Registry Template)
    (data options : Value) (store : σ) : Except RenderError String × σ :=
  t.apply (host services registry maxNesting) data options store

-- The output of the template that a selector selects.
def renderSelected (services : Services σ) (registry : Registry Template)
    (selector data options : Value) (store : σ) : Except RenderError String × σ :=
  match registry.resolve selector with
  | .ok t => t.render services registry data options store
  | .error e => (.error e, store)

end Template
end Stencil
