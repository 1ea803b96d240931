import Depot.Kv.NoAba
import Depot.Kv.Sharded
import Depot.Cluster.Lease
import Depot.Stats.Conserve
import Depot.Gc.DockerClosure
import Depot.Repo.Proxy
import Depot.Repo.Reach
import Depot.Accounts.Admins
import Depot.Config.FirstStart
import Depot.Events.Gap
import Depot.Accounts.Rotation
import Depot.Cache.SingleFlight
import Depot.Cache.Transparent
import Depot.Tree.Collision
import Depot.Index.Runs
import Depot.Writes.Authorised
import Depot.Writes.Staleness
import Depot.Auth.Transparent
import Depot.Repo.CloneExact
import Depot.Gc.DrainLoop
import Depot.Gc.Schedule
import Depot.Kv.RedbBatch
import Depot.Service.Iterate
import Depot.Gc.BloomAccumulator
import Depot.Docker.Patches
import Depot.Service.Linear
import Depot.Helm.Relocate
import Depot.Apt.Cached
import Depot.Apt.RoundTrip
import Depot.Apt.Stanza
import Depot.Index.Orders
import Depot.Worker.Report
import Depot.Go.Latest
import Depot.Pypi.Names
import Depot.Cargo.Framing
import Depot.Writes.Dispatch
import Depot.Config.Stored
import Depot.Cargo.Yank
import Depot.Auth.Login
import Depot.Blob.Reads
import Depot.Config.Updates
import Depot.Tasks.Tail
import Depot.Yum.Depth
import Depot.Worker.Quiesce
