import Fireworq.Execution
import Fireworq.Revision
import Fireworq.Repository.Tables
import Fireworq.MySQL.Tenure
import Fireworq.MySQL.Fencing
import Fireworq.MySQL.Orphans
import Fireworq.MySQL.Isolation
import Fireworq.Paging
import Fireworq.MySQL.Inspector
import Fireworq.MySQL.Pagination
import Fireworq.BinaryHeap
import Fireworq.InMemory.Queue
import Fireworq.Stats.JobQueue
import Fireworq.Stats.Drivers
import Fireworq.Dispatcher.Conservation
import Fireworq.Dispatcher.Shutdown
import Fireworq.Repository.Calls
import Fireworq.Repository.Retry
import Fireworq.Repository.Torn
import Fireworq.Service.Node
import Fireworq.Service.Cluster
import Fireworq.Service.Startup
import Fireworq.Service.CircularWait
import Fireworq.Service.Definitions
import Fireworq.Service.Convergence
import Fireworq.Routing.Cache
import Fireworq.Routing.Convergence
import Fireworq.MySQL.Accounting
import Fireworq.JobQueue.Accounting
import Fireworq.JobQueue.Spec
import Fireworq.InMemory.Refinement
import Fireworq.MySQL.Refinement
import Fireworq.JobQueue.Refinement
import Fireworq.Dispatcher.Throttling
import Fireworq.MySQL.Recovery
import Fireworq.MySQL.FailureLog
import Fireworq.MySQL.Pop
import Fireworq.JobQueue.Attempts
import Fireworq.InMemory.Lifecycle
import Fireworq.MySQL.Lifecycle
import Fireworq.JobQueue.Lifecycle
import Fireworq.Keyset
import Fireworq.MySQL.FailurePages
import Fireworq.GoJson
import Fireworq.Repository.InMemory
import Fireworq.Repository.Agreement
import Fireworq.Service.Lifecycle
import Fireworq.Service.Driver
import Fireworq.Service.Database
import Fireworq.Service.Memory
import Fireworq.Service.Takeover
import Fireworq.Service.Redefinition
import Fireworq.Service.OnDemand
import Fireworq.MySQL.Listing
import Fireworq.Web.Queue
import Fireworq.MySQL.ListingLoad
import Fireworq.Redis
import Fireworq.Stats.Keys
import Fireworq.InMemory.Statistics
import Fireworq.InMemory.Delays
import Fireworq.Web.Job
import Fireworq.Service.Acceptance
import Fireworq.MySQL.Stop
import Fireworq.Config.Startup
import Fireworq.Counters
import Fireworq.Dispatcher.Delivery
import Fireworq.Dispatcher.Requests
import Fireworq.Dispatcher.Worker
import Fireworq.JobQueue.Fairness
import Fireworq.JobQueue.Snapshot
import Fireworq.MySQL.Failover
import Fireworq.MySQL.NodeInfo
import Fireworq.MySQL.Removal
import Fireworq.Repository.Routings
import Fireworq.RwMutex
import Fireworq.SharedVariables
import Fireworq.Stats.Windows
import Fireworq.Web.Payload
import Fireworq.Web.Rendering
import Fireworq.Web.Rest
import Fireworq.Service.Correspondence
