import Wenas.Lib.Serial
import Wenas.Lib.Ring
import Wenas.Lib.Slots
import Wenas.Lib.Double
import Wenas.Lib.Machine
import Wenas.Lib.Bytes
import Wenas.Lib.Cyclic
import Wenas.Lib.Links
import Wenas.Lib.Places
import Wenas.Lib.Heaps
import Wenas.Lib.Loop
import Wenas.Xmsger.Channel
import Wenas.Xmsger.Receive
import Wenas.Xmsger.Sides
import Wenas.Xmsger.Fragment
import Wenas.Xmsger.SendRing
import Wenas.Xmsger.Sender
import Wenas.Xmsger.Window
import Wenas.Xmsger.Sampling
import Wenas.Xmsger.Estimate
import Wenas.Xmsger.Threshold
import Wenas.Xmsger.Opened
import Wenas.Xmsger.Queue
import Wenas.Xmsger.RecvRing
import Wenas.Xmsger.Ledger
import Wenas.Xmsger.Tally
import Wenas.Xmsger.Reassembly
import Wenas.Xmsger.Assembly
import Wenas.Xmsger.RoundTrip
import Wenas.Xmsger.Link
import Wenas.Xmsger.LinkInv
import Wenas.Xmsger.LinkStep
import Wenas.Xmsger.Single
import Wenas.Xmsger.OldAck
import Wenas.Xmsger.Delivery
import Wenas.Xmsger.Stamped
import Wenas.Xmsger.Progress
import Wenas.Xmsger.Hosts
import Wenas.Xmsger.FastResend
import Wenas.Xmsger.SendAll
import Wenas.Xmsger.Alone
import Wenas.Xmsger.Connect
import Wenas.Xltp.Frames
import Wenas.Xltp.Ownership
import Wenas.Xltp.Lifetime
import Wenas.Xltp.Api
import Wenas.Xtree.Tree
import Wenas.Xtree.Map
import Wenas.Xtree.Nodes
import Wenas.Xtree.Clear
import Wenas.Xtree.Counts
import Wenas.Xtree.Ends
import Wenas.Xtree.Walk
import Wenas.Xtree.Rise
import Wenas.Xtree.Drop
import Wenas.Xtree.Marks
import Wenas.Xline.Parser
import Wenas.Xline.Bounds
import Wenas.Xline.Termination
import Wenas.Xline.Endian
import Wenas.Xline.Frame
import Wenas.Xline.Contents
import Wenas.Xline.Failure
import Wenas.Xline.Tree
import Wenas.Xline.Script
import Wenas.Xline.Decode
import Wenas.Xline.RoundTrip
import Wenas.Xline.Header
import Wenas.Xline.Find
import Wenas.Xline.Objects
import Wenas.Xline.Keys
import Wenas.Xline.Patch
import Wenas.Xline.Format
import Wenas.Xlio.Tree
import Wenas.Xlio.Stream
import Wenas.Xlio.Control
import Wenas.Xlio.Transfer
import Wenas.Xlio.Scan
import Wenas.Xlio.Batch
import Wenas.Xlio.Arrive
import Wenas.Xlio.Phases
import Wenas.Xlio.Handlers
import Wenas.Xlio.Complete
import Wenas.Xlio.Frames
import Wenas.Xlio.Pool
import Wenas.Xlio.Inbox
import Wenas.Xlio.Items
import Wenas.Xlio.Chunks
import Wenas.Xlio.Marker
import Wenas.Xlio.Release
import Wenas.Xlio.Target
import Wenas.Xlio.Maker
import Wenas.Xpipe.Pipe
import Wenas.Xpipe.Threads
import Wenas.Xpipe.Blocking
import Wenas.Xpipe.Pointers
import Wenas.Xmalloc.Page
import Wenas.Xmalloc.Blocks
import Wenas.Xmalloc.Layout
import Wenas.Xmalloc.Order
import Wenas.Xmalloc.Joins
import Wenas.Xmalloc.Release
import Wenas.Xmalloc.Steps
import Wenas.Xmalloc.Align
import Wenas.Xmalloc.Runs
import Wenas.Xmalloc.Leaks
import Wenas.Xmalloc.Threads
import Wenas.Xmalloc.Largest
import Wenas.Xmalloc.Requests
import Wenas.Xmalloc.Honoured
import Wenas.Xmalloc.Pools
import Wenas.Xlib.Avlmini
import Wenas.Xlib.Runs
import Wenas.Xlib.Sha256
import Wenas.Xheap.Heap
import Wenas.Xheap.Queue
import Wenas.Xtable.Table
import Wenas.Xtable.Search
import Wenas.Xtable.Index
import Wenas.Uuid.Nodes
import Wenas.Uuid.Runs
import Wenas.Uuid.Text
import Wenas.Uuid.Absent
import Wenas.Uuid.Numbers
import Wenas.Xapi.Traverser
