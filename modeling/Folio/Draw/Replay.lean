import Folio.Draw.Command
import Folio.Draw.Gallery
import Folio.Layer.Visibility

/-!
# Replaying draw lists

A draw list is replayed under a visibility of layers. Commands that have an effect on others always
take effect; what would be painted inside hidden content is left out.
-/

namespace Folio

/-- What happens on a canvas while a draw list is replayed. -/
inductive CanvasCall where
  | state (command : StateCommand)
  | alpha (value : Float32) (stroke : Bool)
  | fill (path : Path) (rule : FillRule)
  | stroke (path : Path)
  | image (raster : Raster)

namespace DrawCommand

/-- What a command does to the layers that enclose what is drawn. -/
def onLayers (v : Visibility) (c : DrawCommand) (layers : LayerStack) : LayerStack :=
  match c with
  | .pushLayer m => layers.push m v
  | .popLayer => layers.pop
  | _ => layers

/-- What a command does on a canvas, where `visible` says whether painting takes effect, and the
gallery afterwards. -/
def onCanvas (config : ImageConfig) (visible : Bool) (g : Gallery) :
    DrawCommand → List CanvasCall × Gallery
  | .state c => ([.state c], g)
  | .alpha value forStroke paint => (if paint then [.alpha value forStroke] else [], g)
  | .fill path rule => (if visible then [.fill path rule] else [], g)
  | .stroke path => (if visible then [.stroke path] else [], g)
  | .image number _ resources color =>
    if visible then
      let (raster, g) := g.draw number color resources config
      (raster.toList.map .image, g)
    else ([], g)
  | .pushLayer _ | .popLayer => ([], g)

/-- What the commands of a list do on a canvas, given the layers that enclose them, and the gallery
afterwards. -/
def replayFrom (v : Visibility) (config : ImageConfig) : LayerStack → Gallery →
    List DrawCommand → List CanvasCall × Gallery
  | _, g, [] => ([], g)
  | layers, g, c :: commands =>
    let (calls, g) := c.onCanvas config layers.isVisible g
    let (others, g) := replayFrom v config (c.onLayers v layers) g commands
    (calls ++ others, g)

/-- What a draw list does on a canvas, and the gallery afterwards. -/
def replay (commands : List DrawCommand) (v : Visibility) (config : ImageConfig) (g : Gallery) :
    List CanvasCall × Gallery := replayFrom v config {} g commands

end DrawCommand

end Folio
