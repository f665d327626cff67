import CsappLabs.Foundation.Memory
import CsappLabs.Malloc.Explicit.Model
import CsappLabs.Foundation.Linked
import CsappLabs.Malloc.Blocks
import CsappLabs.Malloc.Stores
import CsappLabs.Malloc.Coalescing
import CsappLabs.Malloc.Segregated.Model
import CsappLabs.Malloc.Coalescing
import CsappLabs.Foundation.Linked
import CsappLabs.Malloc.Links
import CsappLabs.Malloc.TagWrites
import CsappLabs.Malloc.Segregated.FreeLists
import CsappLabs.Malloc.Segregated.Heap
import CsappLabs.Malloc.Segregated.Coalesce
import CsappLabs.Malloc.Segregated.Place
import CsappLabs.Malloc.Client
import CsappLabs.Malloc.Segregated.Calls
import CsappLabs.Malloc.Segregated.Init
import CsappLabs.Malloc.Segregated.Runs
import CsappLabs.Malloc.Explicit.FreeList
import CsappLabs.Malloc.Explicit.Heap
import CsappLabs.Malloc.Explicit.Coalesce
import CsappLabs.Malloc.Explicit.Place
import CsappLabs.Malloc.Explicit.Calls
import CsappLabs.Malloc.Explicit.Realloc
import CsappLabs.Malloc.Explicit.Init
import CsappLabs.Malloc.Explicit.Runs
import CsappLabs.Malloc.Implicit.Coalesce
import CsappLabs.Malloc.Implicit.Calls
import CsappLabs.Malloc.Implicit.Runs
import CsappLabs.Foundation.CString
import CsappLabs.Foundation.Transition
import CsappLabs.Proxy.Cache.Model
import CsappLabs.Proxy.Cache.Chain
import CsappLabs.Proxy.Cache.Entries
import CsappLabs.Proxy.Cache.Sections
import CsappLabs.Proxy.Cache.Insertion
import CsappLabs.Proxy.Cache.Calls
import CsappLabs.Proxy.Cache.Locking
import CsappLabs.Proxy.Cache.Lru
import CsappLabs.Proxy.Cache.Threads
import CsappLabs.Proxy.Cache.StaleSlots
import CsappLabs.Proxy.Cache.DuplicateKeys
import CsappLabs.Proxy.Relay
import CsappLabs.CacheSim.Model
import CsappLabs.CacheSim.Lines
import CsappLabs.CacheSim.Runs
import CsappLabs.CacheSim.Conservation
import CsappLabs.CacheSim.Reference
import CsappLabs.CacheSim.Lru
import CsappLabs.Shell.Jobs
import CsappLabs.Shell.Model
import CsappLabs.Shell.Invariant
import CsappLabs.Shell.Tracking
import CsappLabs.Shell.Foreground
import CsappLabs.Shell.SignalMask
import CsappLabs.Proxy.Request.Model
import CsappLabs.Proxy.Request.Response
import CsappLabs.Foundation.Tally
import CsappLabs.Proxy.Interleaving
import CsappLabs.Foundation.Ring
import CsappLabs.Proxy.ThreadPool.Invariant
import CsappLabs.Proxy.ThreadPool.Runs
import CsappLabs.Malloc.Implicit.FirstFit
import CsappLabs.Malloc.Segregated.Fit
import CsappLabs.Malloc.Segregated.Bounds
import CsappLabs.Malloc.Segregated.Refusal
import CsappLabs.Malloc.Segregated.Release
import CsappLabs.CacheSim.BlockIdentity
import CsappLabs.CacheSim.Independence
import CsappLabs.CacheSim.Startup
import CsappLabs.Malloc.Capacity
import CsappLabs.Malloc.Implicit.WordLimit
import CsappLabs.Malloc.Explicit.WordLimit
import CsappLabs.Malloc.Segregated.WordLimit
import CsappLabs.Malloc.WordLimit
import CsappLabs.Malloc.Segregated.Order
import CsappLabs.Malloc.Segregated.BestFit
import CsappLabs.CacheSim.TraceLines
import CsappLabs.Foundation.Loop
import CsappLabs.Shell.BgFg
import CsappLabs.Shell.CommandLine
import CsappLabs.Transpose.Mirror
import CsappLabs.Transpose.Opt
import CsappLabs.Transpose.Ragged
import CsappLabs.Proxy.Request.Uri
import CsappLabs.DataLab.FloatToInt
import CsappLabs.DataLab.HowManyBits
import CsappLabs.Foundation.Unfold
import CsappLabs.Proxy.Reads
import CsappLabs.Proxy.Request.Bounds
import CsappLabs.Proxy.Request.RelayReads
import CsappLabs.Malloc.Driver.Model
import CsappLabs.Foundation.Intervals
import CsappLabs.Foundation.Scan
import CsappLabs.Malloc.Driver.Acceptance
import CsappLabs.Malloc.Driver.Balance
import CsappLabs.Malloc.Driver.Overlap
import CsappLabs.Malloc.Driver.TraceFile
import CsappLabs.Malloc.Driver.TraceLayout
import CsappLabs.Malloc.Driver.Utilization
import CsappLabs.Malloc.Reports
import CsappLabs.DataLab.FloatTwice
import CsappLabs.DataLab.Puzzles
import CsappLabs.Foundation.Decimal
import CsappLabs.Proxy.Tiny.Files
import CsappLabs.Proxy.Tiny.Proxied
import CsappLabs.Proxy.Tiny.Sessions
import CsappLabs.Shell.Keyboard
import CsappLabs.Shell.Listing
import CsappLabs.CacheSim.TestTrans
import CsappLabs.Transpose.Arrays
import CsappLabs.Transpose.Tracegen
