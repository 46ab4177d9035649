import Stencil.Value.Coercion
import Stencil.Value.Error

namespace Stencil

-- Things that are registered under names. The entries ascend by name.
structure Registry (α : Type) where
  entries : List (String × α)

namespace Registry

variable {α : Type}

def empty : Registry α :=
  ⟨[]⟩

def insertIn (name : String) (x : α) : List (String × α) → List (String × α)
  | [] => [(name, x)]
  | entry :: entries =>
    if name < entry.1 then (name, x) :: entry :: entries
    else if name = entry.1 then (name, x) :: entries
    else entry :: insertIn name x entries

-- Registers under a name, and replaces what was registered under it.
def insert (r : Registry α) (name : String) (x : α) : Registry α :=
  ⟨insertIn name x r.entries⟩

def erase (r : Registry α) (name : String) : Registry α :=
  ⟨r.entries.filter (·.1 != name)⟩

def get? (r : Registry α) (name : String) : Option α :=
  (r.entries.find? (·.1 == name)).map (·.2)

def contains (r : Registry α) (name : String) : Bool :=
  (r.get? name).isSome

def names (r : Registry α) : List String :=
  r.entries.map (·.1)

def size (r : Registry α) : Nat :=
  r.entries.length

-- A selector is a name, or a name after a number sign.
def select? (r : Registry α) (selector : String) : Option α :=
  (r.get? selector).or <|
    match selector.toList with
    | '#' :: name => r.get? (.ofList name)
    | _ => none

def resolve (r : Registry α) (selector : Value) : Except RenderError α :=
  match r.select? selector.text with
  | some x => .ok x
  | none => .error (.unknownTemplate selector.text)

end Registry
end Stencil
