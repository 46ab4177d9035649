namespace Stencil

-- Why a template does not render.
inductive RenderError
  | propertyOfUndefined (property : String)
  | propertyOfNull (property : String)
  | notCallable (callee : String)
  | unknownTemplate (selector : String)
  | custom (message : String)
  -- Sub-templates call one another more deeply than is followed.
  | tooDeep
deriving DecidableEq

def RenderError.message : RenderError → String
  | propertyOfUndefined property =>
    "Cannot read properties of undefined (reading '" ++ property ++ "')"
  | propertyOfNull property => "Cannot read properties of null (reading '" ++ property ++ "')"
  | notCallable callee => callee ++ " is not a function"
  | unknownTemplate selector => "Unknown template: " ++ selector
  | custom message => message
  | tooDeep => "Templates are nested too deeply"

end Stencil
