import Stencil.Fields
import Stencil.Json.Basic
import Stencil.Value.Basic

namespace Stencil.Value

mutual

-- The value of a document. Its arrays and objects are numbered from `next` on, and the next free
-- number is returned too.
def ofJson : Json → (next : Nat) → Value × Nat
  | .null, next => (.null, next)
  | .bool b, next => (.bool b, next)
  | .number n, next => (.number n.toFloat, next)
  | .string s, next => (.string s, next)
  | .array items, next =>
    let (items, next) := itemsOfJson items next
    (.array next items, next + 1)
  | .object members, next =>
    let (fields, next) := fieldsOfJson members next
    (.object next (Fields.ofList fields), next + 1)

def itemsOfJson : List Json → Nat → List Value × Nat
  | [], next => ([], next)
  | x :: xs, next =>
    let (v, next) := ofJson x next
    let (vs, next) := itemsOfJson xs next
    (v :: vs, next)

def fieldsOfJson : List (String × Json) → Nat → List (String × Value) × Nat
  | [], next => ([], next)
  | (name, x) :: members, next =>
    let (v, next) := ofJson x next
    let (fields, next) := fieldsOfJson members next
    ((name, v) :: fields, next)

end
end Stencil.Value
