import Afs.Client.ChangeStream
import Afs.Client.CompareAndSwap
import Afs.Client.Fencing
import Afs.Client.LockExclusion
import Afs.Client.LockRanges
import Afs.Client.PagingRuns
import Afs.Client.Reads
import Afs.Client.SessionBarrier
import Afs.ControlPlane.LoginRuns
import Afs.ControlPlane.RefCounts
import Afs.ControlPlane.TextDiff
import Afs.History.Enforcement
import Afs.History.Room
import Afs.Sync.ChunkUpload
import Afs.Sync.RemoteEvents
import Afs.Sync.Tombstones
import Afs.Workspace.ArrayContent
