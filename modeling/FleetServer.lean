import FleetServer.Json.Value
import FleetServer.Json.Float
import FleetServer.Json.Decode
import FleetServer.Json.Struct
import FleetServer.Json.Reencode
import FleetServer.Dl.Store
import FleetServer.Dl.PolicyLeader
import FleetServer.Dl.LeaseSeq
import FleetServer.Dl.LeaseRuns
import FleetServer.Dl.LeaderSearch
import FleetServer.Fleet.LocalMeta
import FleetServer.Fleet.Enroll
import FleetServer.Fleet.EnrollFlow
import FleetServer.Fleet.KeyCache
import FleetServer.Es.Result
