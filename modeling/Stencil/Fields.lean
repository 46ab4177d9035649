namespace Stencil.Fields

-- Named parts in the order in which their names first came up.
variable {α : Type}

def get? (fields : List (String × α)) (name : String) : Option α :=
  (fields.find? (·.1 == name)).map (·.2)

-- A new value takes the place of the old one of the same name.
def insert (name : String) (value : α) : List (String × α) → List (String × α)
  | [] => [(name, value)]
  | field :: fields =>
    if field.1 == name then (name, value) :: fields else field :: insert name value fields

def insertAll (fields new : List (String × α)) : List (String × α) :=
  new.foldl (fun fields field => insert field.1 field.2 fields) fields

def ofList (fields : List (String × α)) : List (String × α) :=
  insertAll [] fields

end Stencil.Fields
