import OsHonor.Ipc.Removal
import OsHonor.Ipc.Payload
import OsHonor.Ipc.Delivery
import OsHonor.Ipc.Handoff
import OsHonor.Ipc.Identifiers
import OsHonor.Lib.Format
import OsHonor.Lib.Waiting
import OsHonor.Fs.Cache.Exclusive
import OsHonor.Fs.Cache.Capacity
import OsHonor.Fs.Cache.Allocation
import OsHonor.Fs.Cache.Eviction
import OsHonor.Fs.Inodes.Interleaving
import OsHonor.Fs.Inodes.DirectoryMap
import OsHonor.Fs.Inodes.Resolution
import OsHonor.Fs.OpenFiles.Counts
import OsHonor.Processes.ChildExit
import OsHonor.Processes.Reaping
import OsHonor.Processes.Orphans
import OsHonor.Processes.Kills
import OsHonor.Processes.Lifetime
import OsHonor.Processes.Pids
import OsHonor.Lib.RbTree.Ordered
import OsHonor.User.Shell.Parser
import OsHonor.User.Mkfs.Mounted
import OsHonor.Exec.Failure
import OsHonor.Memory.Objects
import OsHonor.Vm.UserPointers
import OsHonor.Vm.Intersection
import OsHonor.Vm.Heap
import OsHonor.Vm.Munmap
import OsHonor.Exec.Headers
import OsHonor.Vm.MappedFiles
