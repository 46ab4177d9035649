namespace Stencil

-- What a project is read from. A file holds a text, unless its bytes are none.
structure Files where
  -- What the file at a path holds, if there is a file.
  read? : String → Option (Option String)
  -- The paths of the files in a directory and below, each starting with how the directory was
  -- called, with what they hold.
  inside : String → List (String × Option String)

end Stencil
