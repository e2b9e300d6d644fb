import StepLoom.Yaml.Writer

/-!
# The text of a compiled workflow

A compiled workflow is YAML under a line that says which template it comes from.
-/

namespace StepLoom.Template

def header (source : String) : String :=
  "# AUTOGENERATED by actions-workflow-tools from " ++ source ++ "\n\n"

def render (doc : Value) (source : String) : Except Fault String := do
  return header source ++ (← Yaml.write doc)

end StepLoom.Template
