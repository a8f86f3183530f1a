namespace Conduit.Text

def listed (items : List String) : String :=
  "[" ++ ", ".intercalate items ++ "]"

def tagged (kind value : String) : String :=
  kind ++ "(" ++ value ++ ")"

def optional : Option String → String
  | none => "None"
  | some value => tagged "Some" value

/-- A record on one line. Without fields only its name remains. -/
def record (name : String) (fields : List (String × String)) : String :=
  if fields.isEmpty then name
  else name ++ " \x7b " ++ ", ".intercalate (fields.map fun f ↦ f.1 ++ ": " ++ f.2) ++ " \x7d"

end Conduit.Text
