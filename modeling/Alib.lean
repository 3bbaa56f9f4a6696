import Alib.Execution
import Alib.Platform
import Alib.ErrorStack
import Alib.Allocation
import Alib.ErrorLog
import Alib.ErrorRelease
import Alib.SiftHeap
import Alib.Pot
import Alib.PotOrder
import Alib.PotPriorityQueue
import Alib.PotSlotZero
import Alib.PotSort
import Alib.PotTrace
import Alib.PotReuse
import Alib.PotResize
import Alib.ItemList
import Alib.ItemListDeque
import Alib.Hash
import Alib.HashTable
import Alib.HashRehash
import Alib.HashInvariant
import Alib.HashPut
import Alib.KeyedMap
import Alib.HashRuns
import Alib.HashMap
import Alib.HashShape
import Alib.HashCount
import Alib.HashFailure
import Alib.HashQuery
import Alib.HashSizes
import Alib.HashOwnership
import Alib.NodeTree
import Alib.Bintree
import Alib.BintreeShape
import Alib.BintreeRemoval
import Alib.BintreeCalls
import Alib.BintreeMap
import Alib.BintreeOwnership
import Alib.Collect
import Alib.Monitor
import Alib.Queue
import Alib.QueueFifo
import Alib.QueueWakeup
import Alib.QueueDeinit
import Alib.QueueAccount
import Alib.QueueRelease
import Alib.BlockAccount
import Alib.HashBlocks
import Alib.HashMisuse
import Alib.Destructors
import Alib.MallocNull
import Alib.CString
import Alib.ByteBlock
import Alib.Strings
import Alib.Basename
import Alib.Trim
import Alib.Vsprintf
import Alib.Resolve
import Alib.Xmalloc
import Alib.MemoryCalls
import Alib.MemoryRuns
import Alib.Escape
import Alib.ClipColon
import Alib.HexNumber
import Alib.Hex
import Alib.WordMixing
import Alib.HashMixing
import Alib.HashReduce
import Alib.Vec
import Alib.VecDeque
import Alib.VecOwnership
import Alib.Descriptor
import Alib.Buffers
import Alib.Flail
import Alib.ReadFile
import Alib.SocketFile
import Alib.UdpServer
import Alib.ThreadStack
import Alib.Clean
import Alib.DirectoryTree
import Alib.BytePath
import Alib.Positional
import Alib.StringOrder
import Alib.WordText
import Alib.StringKeys
import Alib.Printf
import Alib.Warn
