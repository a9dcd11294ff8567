import MemKey.Lib.Decimal
import MemKey.Lib.Linked
import MemKey.Lib.Listing
import MemKey.Lib.Outcome
import MemKey.Lib.Memory
import MemKey.Lib.Probing
import MemKey.Lib.Resp
import MemKey.Lib.Runs
import MemKey.Lib.Simulation
import MemKey.Helper
import MemKey.Table
import MemKey.Set
import MemKey.List
import MemKey.Htable
import MemKey.Interpreter
import MemKey.Allocation
import MemKey.Parser
import MemKey.Wire
import MemKey.Session
import MemKey.Client
import MemKey.Server
import MemKey.Pointer.Block
import MemKey.Pointer.List
import MemKey.Pointer.Table
import MemKey.Pointer.Htable
import MemKey.Pointer.Reads
import MemKey.Theorems.Helper
import MemKey.Theorems.Numbers
import MemKey.Theorems.Hash
import MemKey.Theorems.Table
import MemKey.Theorems.Set
import MemKey.Theorems.Members
import MemKey.Theorems.Htable
import MemKey.Theorems.Load
import MemKey.Theorems.Rehash
import MemKey.Theorems.Resize
import MemKey.Theorems.List
import MemKey.Theorems.Deque
import MemKey.Theorems.Replies
import MemKey.Theorems.Keyspace
import MemKey.Theorems.Commands
import MemKey.Theorems.Interpret
import MemKey.Theorems.Counter
import MemKey.Theorems.Numeric
import MemKey.Theorems.Variadic
import MemKey.Theorems.Allocation
import MemKey.Theorems.Operations
import MemKey.Theorems.Types
import MemKey.Theorems.Moves
import MemKey.Theorems.Enumeration
import MemKey.Theorems.Batch
import MemKey.Theorems.Containers
import MemKey.Theorems.Indices
import MemKey.Theorems.Shown
import MemKey.Theorems.Wire
import MemKey.Theorems.Parser
import MemKey.Theorems.Session
import MemKey.Theorems.Store
import MemKey.Theorems.Abstraction
import MemKey.Theorems.Lossless
import MemKey.Theorems.Reading
import MemKey.Theorems.Refinement
import MemKey.Theorems.Client
import MemKey.Theorems.Texts
import MemKey.Theorems.Server
import MemKey.Theorems.Nested
import MemKey.Theorems.Coverage
import MemKey.Theorems.Overflow
import MemKey.Theorems.Parametric
import MemKey.Theorems.Pointer.List
import MemKey.Theorems.Pointer.Table
import MemKey.Theorems.Pointer.Htable
import MemKey.Theorems.Pointer.Keyspace
import MemKey.Theorems.Pointer.Copies
import MemKey.Theorems.Pointer.Reads
import MemKey.Theorems.Pointer.Runs
