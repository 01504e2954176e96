import Yfs.MissingInodes
import Yfs.Consistency
import Yfs.DirectoryRuns
import Yfs.SetattrRuns
import Yfs.FileData
import Yfs.NonDirectories
import Yfs.OutOfSpace
import Yfs.Oversize
import Yfs.GetattrRuns
import Yfs.Timestamps
import Yfs.PagedListing
import Yfs.FifoWakeups
import Yfs.FuseFiles
import Yfs.FuseTimes
import Yfs.Part1TesterRuns
import Yfs.RpcRuns
import Yfs.Library.ClientLogic
import Yfs.Library.Decimal
import Yfs.Library.Delimited
import Yfs.Library.Machine
import Yfs.AllocatorRuns
import Yfs.InodeNumbers
import Yfs.Uninitialised
import Yfs.ReadLoops
import Yfs.WriteLoops
import Yfs.AllocatorInverse
