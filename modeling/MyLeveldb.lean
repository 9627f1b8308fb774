import MyLeveldb.Basics
import MyLeveldb.Random.Definitions
import MyLeveldb.Support.Numbers.Mersenne
import MyLeveldb.Random.Lehmer
import MyLeveldb.SkipList.Definitions
import MyLeveldb.Support.Lists.Levels
import MyLeveldb.Support.Lists.Linked
import MyLeveldb.Support.Order.ThreeWay
import MyLeveldb.SkipList.Nodes
import MyLeveldb.SkipList.Search
import MyLeveldb.SkipList.Insert
import MyLeveldb.SkipList.Invariant
import MyLeveldb.SkipList.Refinement
import MyLeveldb.SkipList.Interleaving
import MyLeveldb.SkipList.Readers
import MyLeveldb.SkipList.Views
import MyLeveldb.SkipList.Sharing
import MyLeveldb.SkipList.Linearization
import MyLeveldb.SkipList.Scans
import MyLeveldb.SkipList.Safety
import MyLeveldb.Coding.Definitions
import MyLeveldb.Support.Numbers.Base128
import MyLeveldb.Support.Numbers.Bits
import MyLeveldb.Coding.Words
import MyLeveldb.Coding.Stream
import MyLeveldb.Coding.Loads
import MyLeveldb.Coding.Varints
import MyLeveldb.Coding.Endian
import MyLeveldb.Coding.Slices
import MyLeveldb.Coding.Addresses
import MyLeveldb.Comparator.Bytewise
import MyLeveldb.Comparator.Lengths
import MyLeveldb.Format.Definitions
import MyLeveldb.Format.Keys
import MyLeveldb.Format.Order
import MyLeveldb.Format.Versions
import MyLeveldb.Arena.Allocation
import MyLeveldb.Arena.Accounting
import MyLeveldb.Arena.FitCheck
import MyLeveldb.MemTable.Definitions
import MyLeveldb.MemTable.Pointers
import MyLeveldb.MemTable.Layout
import MyLeveldb.MemTable.Build
import MyLeveldb.MemTable.Get
import MyLeveldb.MemTable.Scan
import MyLeveldb.MemTable.Records
import MyLeveldb.MemTable.References
import MyLeveldb.Comparator.Separators
import MyLeveldb.Format.Separators
import MyLeveldb.Support.Memory.Objects
import MyLeveldb.Iterator.Definitions
import MyLeveldb.Iterator.Cleanups
import MyLeveldb.Status.Variables
import MyLeveldb.Status.Values
import MyLeveldb.Support.Machines.Runs
import MyLeveldb.Support.Machines.Threads
import MyLeveldb.Port.Definitions
import MyLeveldb.Port.Handshake
import MyLeveldb.Port.Signals
import MyLeveldb.Env.Background
import MyLeveldb.Env.Delivery
import MyLeveldb.Env.Settling
import MyLeveldb.Env.RandomAccess
import MyLeveldb.Env.Files
import MyLeveldb.Support.Text.Numerals
import MyLeveldb.Support.Text.Escapes
import MyLeveldb.Logging.Definitions
import MyLeveldb.Logging.Numbers
import MyLeveldb.Logging.Texts
import MyLeveldb.Logging.Logv
import MyLeveldb.Env.Files
import MyLeveldb.SkipList.Calm
import MyLeveldb.SkipList.Walks
