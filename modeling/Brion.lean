import Brion.Report
import Brion.Float32
import Brion.FloatTime
import Brion.Partition
import Brion.Dispatch.Model
import Brion.Dispatch.Bookkeeping
import Brion.Dispatch.Workers
import Brion.Dispatch.Handshake
import Brion.Dispatch.Progress
import Brion.Dispatch.Order
import Brion.Dispatch.Credits
import Brion.Dispatch.Requests
import Brion.Dispatch.Stranded
import Brion.Dispatch.Covering
import Brion.Dispatch.Refinement
import Brion.Gather
import Brion.FrameIndex
import Brion.Verify
import Brion.Output
