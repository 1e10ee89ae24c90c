import LatticeSurgery.Text.Yaml.Reader

namespace LatticeSurgery

open Text (Yaml)

/-! Options of a compilation. -/

inductive LayoutKind where
  | simplePreDistilledStates
deriving DecidableEq, Repr

namespace LayoutKind

def key : LayoutKind → String
  | simplePreDistilledStates => "simple_pre_distilled_states"

def ofKey? : String → Option LayoutKind
  | "simple_pre_distilled_states" => some simplePreDistilledStates
  | _ => none

end LayoutKind

/-- With parallel scheduling the dependencies between blocks are reported. -/
inductive Scheduling where
  | sequential
  | parallel
deriving DecidableEq, Repr

namespace Scheduling

def key : Scheduling → String
  | sequential => "sequential"
  | parallel => "parallel"

def ofKey? : String → Option Scheduling
  | "sequential" => some sequential
  | "parallel" => some parallel
  | _ => none

end Scheduling

structure Options where
  layout : LayoutKind := .simplePreDistilledStates
  litinski : Bool := true
  scheduling : Scheduling := .sequential
deriving DecidableEq, Repr

namespace Options

/-! Options are a YAML mapping. A field that is missing has its default, other keys
are ignored, and no field may be repeated. An empty document has no fields. -/

def yamlText (options : Options) : String :=
  s!"layout: {options.layout.key}\napply_litinski_transform: {options.litinski}\n" ++
    s!"scheduling: {options.scheduling.key}\n"

def word? {α : Type} (ofKey? : String → Option α) (scalar : Yaml.Scalar) : Option α :=
  scalar.name?.bind ofKey?

/-- The entries by the names of their keys, with the values that are scalars. -/
def namedEntries? (document : Yaml.Document) (entries : List (Yaml × Yaml)) :
    Option (List (String × Option Yaml.Scalar)) :=
  entries.mapM fun (key, value) => do
    return ((← document.scalar? key).content, document.scalar? value)

def field? {α : Type} (entries : List (String × Option Yaml.Scalar)) (name : String)
    (read? : Yaml.Scalar → Option α) (default : α) : Option α :=
  match entries.filter fun entry => entry.1 = name with
  | [] => some default
  | [entry] => entry.2.bind read?
  | _ => none

def ofYaml? (document : Yaml.Document) : Option Options :=
  match document.content with
  | .mapping entries => do
      let entries ← namedEntries? document entries
      let defaults : Options := {}
      return {
        layout := ← field? entries "layout" (word? LayoutKind.ofKey?) defaults.layout
        litinski := ← field? entries "apply_litinski_transform" Yaml.Scalar.truth?
          defaults.litinski
        scheduling := ← field? entries "scheduling" (word? Scheduling.ofKey?)
          defaults.scheduling }
  | .scalar written => if written.style = .plain && written.content = "" then some {} else none
  | _ => none

def ofYamlText? (source : String) : Option Options := Yaml.parse? source >>= ofYaml?

end Options

end LatticeSurgery
