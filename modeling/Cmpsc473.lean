import Cmpsc473.Lib.Runs
import Cmpsc473.Lib.Condvar
import Cmpsc473.Channel.Theorems
import Cmpsc473.Channel.Transfers
import Cmpsc473.Channel.LostWakeup
import Cmpsc473.Channel.Peek
import Cmpsc473.Lib.Memory
import Cmpsc473.Malloc.Memlib
import Cmpsc473.Malloc.Mm
import Cmpsc473.Malloc.Client
import Cmpsc473.Malloc.Theorems
import Cmpsc473.Malloc.Contents
import Cmpsc473.Lib.LinkedTree
import Cmpsc473.Malloc.Stree
import Cmpsc473.Malloc.Splay
import Cmpsc473.Malloc.RangeTree
import Cmpsc473.Paging.Gll
import Cmpsc473.Paging.Simulator
import Cmpsc473.Paging.Invariants
import Cmpsc473.Paging.Theorems
import Cmpsc473.Paging.Machine
import Cmpsc473.Lib.CText
import Cmpsc473.Lib.Tally
import Cmpsc473.Channel.Roles
import Cmpsc473.WordCount.Words
import Cmpsc473.WordCount.System
import Cmpsc473.WordCount.Invariants
import Cmpsc473.WordCount.Theorems
import Cmpsc473.Paging.Clock
import Cmpsc473.Paging.Pointers
import Cmpsc473.Paging.Execution
import Cmpsc473.Paging.Statistics
import Cmpsc473.Paging.Slice
import Cmpsc473.Paging.Charges
import Cmpsc473.Paging.Lookups
import Cmpsc473.Lib.Lru
import Cmpsc473.Paging.Replacement
import Cmpsc473.WordCount.Divide
import Cmpsc473.WordCount.Messages
import Cmpsc473.Lib.SearchTree
import Cmpsc473.Lib.Touch
import Cmpsc473.Paging.Files
import Cmpsc473.Paging.Bounds
import Cmpsc473.WordCount.Reducer
import Cmpsc473.Lib.LinkedList
import Cmpsc473.Malloc.Ranges
import Cmpsc473.Malloc.Overlaps
import Cmpsc473.Malloc.Validity
import Cmpsc473.Malloc.Fills
import Cmpsc473.Malloc.Records
import Cmpsc473.Malloc.Steps
import Cmpsc473.Malloc.Alike
import Cmpsc473.Malloc.Leftovers
import Cmpsc473.Malloc.Reruns
import Cmpsc473.Malloc.Emulation
import Cmpsc473.WordCount.Termination
import Cmpsc473.Channel.Drain
import Cmpsc473.Paging.GllNodes
import Cmpsc473.WordCount.Histogram
import Cmpsc473.Paging.GllLists
import Cmpsc473.Paging.Fairness
import Cmpsc473.Paging.Termination
import Cmpsc473.Lib.Fallible
import Cmpsc473.Lib.Scanf
import Cmpsc473.Malloc.Measures
import Cmpsc473.Malloc.TraceFile
import Cmpsc473.Lib.Release
import Cmpsc473.Malloc.FreeRanges
import Cmpsc473.Lib.KBest
import Cmpsc473.Malloc.Sampler
import Cmpsc473.Paging.WorkloadFiles
