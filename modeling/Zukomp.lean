import Zukomp.Core.Listing
import Zukomp.Core.Sniff
import Zukomp.Core.Progress
import Zukomp.Deflate.Accesses
import Zukomp.Deflate.Trailing
import Zukomp.Deflate.Ratio
import Zukomp.Deflate.Sticky
import Zukomp.Deflate.Truncation
import Zukomp.Deflate.RoundTrip
import Zukomp.Frames.Classify
import Zukomp.Frames.Delivery
import Zukomp.Frames.Window
import Zukomp.Bounds
import Zukomp.Capacity
import Zukomp.Declared
import Zukomp.Drained
import Zukomp.Served
import Zukomp.Recovered
import Zukomp.Concluded
import Zukomp.Package.RoundTrip
import Zukomp.Package.Memory
import Zukomp.Deflate.Damage
