import Hypertext.Render.Canvas

/-! Rendering by recursion on the tree: the opening tag, the text, the children in order, the
closing tag. What has no markup is refused. -/
namespace Hypertext.Tree
set_option autoImplicit false

mutual

def draw (pretty : Bool) : Tree → Canvas → Canvas
  | .node x inside children, c =>
    (drawAll pretty children (drawText pretty x inside (c.openElement pretty x))).closeElement
      pretty x
  | .bare what _, c => c.refuse pretty what

def drawText (pretty : Bool) (x : Face) : Option Tree → Canvas → Canvas
  | none, c => if x.hasText then c.writeText x else c
  | some t, c => if x.hasText then (draw pretty t c).endText else c

def drawAll (pretty : Bool) : List Tree → Canvas → Canvas
  | [], c => c
  | t :: rest, c => drawAll pretty rest (draw pretty t c)

end

def drawInner (pretty : Bool) : Tree → Canvas → Canvas
  | .node x inside children, c => drawAll pretty children (drawText pretty x inside c)
  | .bare what children, c => drawAll pretty children (c.refuseInner what)

end Hypertext.Tree
