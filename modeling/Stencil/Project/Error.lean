namespace Stencil

-- Why a run over a project cannot go on.
inductive ProjectError
  | unreadable (path : String)
  | invalidSettings (path : String)
  | invalidIgnore (pattern : String)
  | invalidJson (path : String)
deriving DecidableEq

def ProjectError.message : ProjectError → String
  | unreadable path => "Failed to read " ++ path
  | invalidSettings path => "Invalid configuration in " ++ path
  | invalidIgnore pattern => "Invalid ignore pattern `" ++ pattern ++ "`"
  | invalidJson path => "Invalid JSON in " ++ path

end Stencil
