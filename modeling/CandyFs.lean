import CandyFs.Client
import CandyFs.FileOps
import CandyFs.Storage
import CandyFs.Allocate
import CandyFs.Mkfs
import CandyFs.StorageRuns
import CandyFs.InodeNumbers
import CandyFs.BlockRuns
import CandyFs.FileRuns
import CandyFs.Growth
import CandyFs.ShortWrite
import CandyFs.Shorten
import CandyFs.Truncate
import CandyFs.Abstraction
import CandyFs.StoreCalls
import CandyFs.Interface
import CandyFs.Dir
import CandyFs.DirBlock
import CandyFs.DirOps
import CandyFs.DirMap
import CandyFs.DirRuns
import CandyFs.DirRoom
import CandyFs.DirDestroy
import CandyFs.DirCalls
import CandyFs.Scan
import CandyFs.RefRuns
import CandyFs.Held
import CandyFs.Objects
import CandyFs.Path
import CandyFs.PathOps
import CandyFs.Tally
import CandyFs.NameiTally
import CandyFs.WellFormed
import CandyFs.Walk
import CandyFs.Resolve
import CandyFs.Tree
import CandyFs.Removal
import CandyFs.Refill
import CandyFs.Rename
import CandyFs.Naming
import CandyFs.Space
import CandyFs.Names
import CandyFs.Events
import CandyFs.PathEvents
import CandyFs.Renaming
import CandyFs.NodeEvents
import CandyFs.Making
import CandyFs.PathCalls
import CandyFs.Triple
import CandyFs.Handles
import CandyFs.Candy
import CandyFs.Session
import CandyFs.RefCount
