import Trellis.Template.Build

/-!
# Registered templates

A registry holds templates by name. A tag of a new template can name a component only when that
component is registered already. A name is registered once; a failure leaves the registry as it
was.
-/
namespace Trellis

/-- Templates by name, and the dialect they are written in. -/
structure Registry where
  config : Markup.Config
  templates : Dict Template

namespace Registry

/-- A registry without templates. -/
def empty (config : Markup.Config) : Registry := ⟨config.normalized, []⟩

/-- Whether a name is registered. -/
def contains (r : Registry) (name : String) : Bool := Dict.has r.templates name

/-- The template under a name. -/
def get? (r : Registry) (name : String) : Option Template := Dict.get? r.templates name

/-- The registered names in order. -/
def names (r : Registry) : List String := Dict.names r.templates

/-- Builds a template against the registry. -/
def build (r : Registry) (name markup : String) (uses : Using) : Except MarkupError Template :=
  Template.ofMarkup ⟨r.config, uses, r.contains⟩ name markup

/-- Builds a template without a name and without registering it. -/
def compile (r : Registry) (markup : String) : Except MarkupError Template := r.build "" markup []

/-- Builds a template and registers it. -/
def register (r : Registry) (name markup : String) (uses : Using) :
    Except MarkupError Template × Registry :=
  if r.contains name then (.error (.duplicateTemplate name), r)
  else
    match r.build name markup uses with
    | .ok t => (.ok t, { r with templates := Dict.insert r.templates name t })
    | .error e => (.error e, r)

end Registry

end Trellis
