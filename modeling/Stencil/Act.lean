namespace Stencil

-- A computation on a state that may fail. What a failing computation did to the state is kept.
def Act (σ ε α : Type) : Type :=
  σ → Except ε α × σ

namespace Act

variable {σ ε α β : Type}

def andThen (x : Act σ ε α) (f : α → Act σ ε β) : Act σ ε β :=
  fun s =>
    match x s with
    | (.ok a, s) => f a s
    | (.error e, s) => (.error e, s)

instance : Monad (Act σ ε) where
  pure a := fun s => (.ok a, s)
  bind := andThen

def fail (e : ε) : Act σ ε α :=
  fun s => (.error e, s)

def ofExcept (x : Except ε α) : Act σ ε α :=
  fun s => (x, s)

def get : Act σ ε σ :=
  fun s => (.ok s, s)

def modify (f : σ → σ) : Act σ ε Unit :=
  fun s => (.ok (), f s)

-- Runs a computation between two changes of the state, the second one also if it fails.
def within (before : σ → σ) (x : Act σ ε α) (after : σ → σ → σ) : Act σ ε α :=
  fun s =>
    let (r, s') := x (before s)
    (r, after s s')

theorem pure_apply (a : α) (s : σ) : (pure a : Act σ ε α) s = (.ok a, s) :=
  rfl

theorem bind_apply_ok {x : Act σ ε α} {f : α → Act σ ε β} {s s' : σ} {a : α}
    (h : x s = (.ok a, s')) : (x >>= f) s = f a s' := by
  simp [bind, andThen, h]

theorem bind_apply_error {x : Act σ ε α} {f : α → Act σ ε β} {s s' : σ} {e : ε}
    (h : x s = (.error e, s')) : (x >>= f) s = (.error e, s') := by
  simp [bind, andThen, h]

end Act
end Stencil
