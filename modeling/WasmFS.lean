import WasmFS.Lib.Vec
import WasmFS.Lib.Assoc
import WasmFS.Lib.Forest
import WasmFS.Lib.Transition
import WasmFS.Source.Machine
import WasmFS.Source.State
import WasmFS.Source.Directory
import WasmFS.Source.Paths
import WasmFS.Source.FileTable
import WasmFS.Source.Syscalls
import WasmFS.Source.DataFile
import WasmFS.Source.Exports
import WasmFS.Source.Init
import WasmFS.Namespace.Tree
import WasmFS.Namespace.Invariant
import WasmFS.Namespace.Handles
import WasmFS.Namespace.Resolution
import WasmFS.Descriptors.Table
import WasmFS.Namespace.Changes
import WasmFS.Namespace.Calls
import WasmFS.Data.Frame
import WasmFS.Namespace.Runs
import WasmFS.Namespace.Start
import WasmFS.Namespace.TreeInvariant
import WasmFS.Namespace.Names
import WasmFS.Descriptors.Effects
import WasmFS.Descriptors.Uses
import WasmFS.Status.SystemCalls
import WasmFS.Status.Failures
import WasmFS.Status.Checks
import WasmFS.Status.Codes
import WasmFS.Namespace.StartingPoints
import WasmFS.Namespace.Attributes
import WasmFS.Namespace.OpenFlags
import WasmFS.Namespace.Reopening
import WasmFS.Data.Bounds
import WasmFS.Data.Refinement
import WasmFS.Data.Locality
import WasmFS.Lib.Slots
import WasmFS.Descriptors.Slots
import WasmFS.Descriptors.Hooks
import WasmFS.Descriptors.Descriptions
import WasmFS.Data.Positions
import WasmFS.Data.Bytes
import WasmFS.Data.Contents
import WasmFS.Namespace.Permissions
import WasmFS.Data.AccessModes
import WasmFS.Namespace.Devices
import WasmFS.Namespace.Renaming
import WasmFS.Namespace.AncestorWalk
import WasmFS.Namespace.Removing
import WasmFS.Lib.Transfers
import WasmFS.Data.Accounting
import WasmFS.Data.Sizes
import WasmFS.Data.Stores
import WasmFS.Data.Extents
import WasmFS.Data.FailedTransfers
import WasmFS.Data.Listing
import WasmFS.Lib.Walks
import WasmFS.Namespace.Recursion
import WasmFS.Namespace.Walking
import WasmFS.Namespace.Opening
import WasmFS.Namespace.Creating
import WasmFS.Namespace.MakingDirectories
import WasmFS.Namespace.Symlinks
import WasmFS.Lib.Embedding
import WasmFS.Source.Handles
import WasmFS.Source.IgnoreCase
import WasmFS.Namespace.Refinement
import WasmFS.Namespace.Simulation
import WasmFS.Namespace.Lifts
import WasmFS.Virtual.Wrappers
import WasmFS.Virtual.Unmounted
import WasmFS.Virtual.Operations
import WasmFS.Virtual.Start
import WasmFS.Virtual.Transparency
import WasmFS.Virtual.Names
import WasmFS.Lib.Sharing
import WasmFS.Source.HostFiles
import WasmFS.Descriptors.HostHandles
import WasmFS.Lib.Locking
import WasmFS.Namespace.Locks
import WasmFS.Source.WorkingDirectory
import WasmFS.Namespace.WorkingDirectory
import WasmFS.Source.Pipes
import WasmFS.Data.Pipes
import WasmFS.Descriptors.Duplicates
import WasmFS.Descriptors.PipeEnds
