import Ocoms.Datatype.Clone
import Ocoms.Datatype.ContigUnpack
import Ocoms.Datatype.Copy
import Ocoms.Datatype.DescRoom
import Ocoms.Datatype.GapsPack
import Ocoms.Datatype.GetCount
import Ocoms.Datatype.Heterogeneous
import Ocoms.Datatype.Position
import Ocoms.Datatype.Raw
import Ocoms.Datatype.ReceivePosition
import Ocoms.Datatype.StackDepth
import Ocoms.Datatype.StackReserve
import Ocoms.Datatype.Transfer
import Ocoms.Datatype.WellFormed
import Ocoms.Lib.CSize
import Ocoms.Lib.Cells
import Ocoms.Lib.Doubling
import Ocoms.Lib.LinearProbing
import Ocoms.Mca.BuildEnv
import Ocoms.Mca.ComponentFinalize
import Ocoms.Mca.ComponentRequest
import Ocoms.Mca.ComponentsSelect
import Ocoms.Mca.Framework
import Ocoms.Mca.GroupRegistry
import Ocoms.Mca.HomeDirectory
import Ocoms.Mca.ParamFile
import Ocoms.Mca.Precedence
import Ocoms.Mca.PvarHandle
import Ocoms.Util.Argv
import Ocoms.Util.ArgvEdit
import Ocoms.Util.AtomicLifo
import Ocoms.Util.AtomicMath
import Ocoms.Util.Bitmap
import Ocoms.Util.CmdLine
import Ocoms.Util.CmdLineParse
import Ocoms.Util.CrcErrors
import Ocoms.Util.Csum
import Ocoms.Util.Csum16
import Ocoms.Util.Environ
import Ocoms.Util.FreeListRun
import Ocoms.Util.Graph
import Ocoms.Util.GraphDuplicate
import Ocoms.Util.GraphPaths
import Ocoms.Util.HashTable
import Ocoms.Util.HashTableMap
import Ocoms.Util.HashTableRemove
import Ocoms.Util.HashTableRun
import Ocoms.Util.KeyvalFile
import Ocoms.Util.ListSort
import Ocoms.Util.ObjectClass
import Ocoms.Util.ObjectRelease
import Ocoms.Util.PointerTableRun
import Ocoms.Util.PrintfGuess
import Ocoms.Util.RbTreeDepth
import Ocoms.Util.RbTreeDestroy
import Ocoms.Util.ValueArray
import Ocoms.Util.FreeListThreads
