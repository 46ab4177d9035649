import Stencil.Fields
import Stencil.Value.Basic
import Stencil.Value.Error

namespace Stencil

-- What a template relies on while it is rendered, apart from other templates. Calls of functions may
-- read and change a store of the type `σ`.
structure Services (σ : Type) where
  -- An identity that nothing has yet.
  fresh : σ → Nat × σ
  call : Function → List Value → σ → Except RenderError Value × σ
  -- The keys and values that a loop over a container runs through.
  pairs : Value → List (Value × Value)
  -- The fields of several sources as those of one object.
  merge : List Value → σ → List (String × Value) × σ

structure Host (σ : Type) extends Services σ where
  -- The output of the template that a selector selects.
  invoke : (selector data options : Value) → σ → Except RenderError String × σ

namespace Value

def indexedFrom (i : Nat) : List Value → List (Value × Value)
  | [] => []
  | v :: vs => (.number (Float.ofNat i), v) :: indexedFrom (i + 1) vs

-- Arrays have their indices as keys, objects their field names, and other values have no keys.
def pairs : Value → List (Value × Value)
  | array _ items => indexedFrom 0 items
  | object _ fields => fields.map fun (name, v) => (.string name, v)
  | _ => []

-- Adds the fields of all objects among the sources. Later ones win, also if they are undefined.
def mergeFields (target : List (String × Value)) (sources : List Value) : List (String × Value) :=
  sources.foldl (fun fields source => Fields.insertAll fields (source.fields?.getD [])) target

end Value
end Stencil
