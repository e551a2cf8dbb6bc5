import Hypertext.Render.Unfolding
import Hypertext.Settings

/-! Renderers: some roots, whether to lay them out, and a unit of indentation. The unit is fixed
when the renderer is made. A unit that is no text fails where layout first needs it: either it
cannot be repeated, or what repeating gives cannot be joined with texts. -/
namespace Hypertext
set_option autoImplicit false

structure Renderer where
  roots : List Datum
  pretty : Datum := .bool false
  indent : Datum
  deriving Repr

namespace Renderer

/-- A renderer without a unit of its own takes the one of the active settings. -/
def make (settings : Settings) (roots : List Datum) (pretty indent : Datum) : Renderer where
  roots := roots
  pretty := pretty
  indent := match indent with
    | .null => settings.indent
    | unit => unit

def toValue (r : Renderer) : Datum := .renderer r.roots r.pretty r.indent

def ofValue? : Datum → Option Renderer
  | .renderer roots pretty indent => some ⟨roots, pretty, indent⟩
  | .made _ v => ofValue? v
  | _ => none

def render (f : Forest) (r : Renderer) : Reading String := do
  .report (.rendering r.roots.length r.pretty)
  (Tree.render (f.truth r.pretty) (f.trees r.roots)).compose (.ofValue f r.indent)

def renderInner (f : Forest) (r : Renderer) (on : Datum) : Reading String :=
  (f.drawnInside (f.truth r.pretty) on).compose (.ofValue f r.indent)

end Renderer

namespace Forest

/-- Whether a document is laid out: as asked, or as the settings say where null is asked. -/
def prettyFor (settings : Settings) : Datum → Datum
  | .null => settings.prettyPrint
  | pretty => pretty

def renderDocument (f : Forest) (settings : Settings) (id : DocumentId) (pretty : Datum) :
    Reading String :=
  let renderer := Renderer.make settings (f.rootsOf id) (prettyFor settings pretty) .null
  Text.trimEnd <$> renderer.render f

end Forest

end Hypertext
