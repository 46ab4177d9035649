import Stencil.Render.Host
import Stencil.Value.Property

namespace Stencil

-- The functions that a stock host offers.
inductive Native
  | const (v : Value)
  | argumentCount
  | identity
  | join
  | append (suffix : String)
  | property (name : String)
  | typeName
  | toNumber
  | array
  | throw (message : String)
  -- Counts its calls.
  | counter
  -- Records its arguments under a label.
  | trace (label : String) (v : Value)

-- The functions of the stock host with the number of calls of each, the calls that were recorded,
-- and the next free identity.
structure Store where
  next : Nat
  natives : List (Nat × Native)
  calls : List (Nat × Nat)
  trace : List (String × List Value)

namespace Store

def start : Store :=
  ⟨0, [], [], []⟩

def fresh (s : Store) : Nat × Store :=
  (s.next, { s with next := s.next + 1 })

def callCount (s : Store) (id : Nat) : Nat :=
  (s.calls.lookup id).getD 0

-- Makes a new function.
def define (name : String) (native : Native) (s : Store) : Value × Store :=
  let (id, s) := s.fresh
  (.function ⟨id, name⟩, { s with natives := (id, native) :: s.natives })

def call (f : Function) (arguments : List Value) (s : Store) : Except RenderError Value × Store :=
  let first := arguments.headD .undefined
  match s.natives.lookup f.id with
  | none => (.ok .undefined, s)
  | some native =>
    match native with
    | .const v => (.ok v, s)
    | .argumentCount => (.ok (.number (Float.ofNat arguments.length)), s)
    | .identity => (.ok first, s)
    | .join => (.ok (.string ("|".intercalate (arguments.map Value.text))), s)
    | .append suffix => (.ok (.string (first.text ++ suffix)), s)
    | .property name => (first.get name, s)
    | .typeName => (.ok (.string first.typeName), s)
    | .toNumber => (.ok (.number first.toNumber), s)
    | .array =>
      let (id, s) := s.fresh
      (.ok (.array id arguments), s)
    | .throw message => (.error (.custom message), s)
    | .counter =>
      let count := s.callCount f.id + 1
      (.ok (.number (Float.ofNat count)), { s with calls := (f.id, count) :: s.calls })
    | .trace label v => (.ok v, { s with trace := s.trace ++ [(label, arguments)] })

def services : Services Store where
  fresh := fresh
  call := call
  pairs := Value.pairs
  merge sources s := (Value.mergeFields [] sources, s)

end Store
end Stencil
