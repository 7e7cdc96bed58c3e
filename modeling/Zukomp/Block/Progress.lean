import Zukomp.Block.Expected
import Zukomp.Block.RoundTrip
import Zukomp.Core.Progress

/-! # Progress of lz4-block

Before `ZU_FINISH` all input is gathered, so a request for input comes with none left. After it
nothing is asked for but room, and what is held is bounded by what one block can come to.
-/

namespace Zukomp

variable {Z : Lz4} {s : Lz4bState} {w : Window} {mode : Flush} {x : List UInt8}

/-- A text that liblz4 decodes fits the capacity it is given. -/
def Lz4.Fits (Z : Lz4) : Prop :=
  ∀ {b x cap}, b.length ≤ intMax → cap ≤ intMax → Z.decompressSafe b cap = some x → x.length ≤ cap

end Zukomp
