import DistBuild.Machinery.Run
import DistBuild.Machinery.Blocks
import DistBuild.Machinery.Base128
import DistBuild.Server.Verdict
import DistBuild.Upload.RoundTrip
import DistBuild.Transport.DeadSocket
import DistBuild.Result.ObjFile
import DistBuild.Server.Stability
import DistBuild.Server.Waiting
import DistBuild.Server.Workers
import DistBuild.Server.Zombies
import DistBuild.Includes.IncludeNext
import DistBuild.Includes.Spellings
import DistBuild.Includes.Digests
import DistBuild.Client.Lifetime
import DistBuild.Result.Response
import DistBuild.Client.IpcCodec
import DistBuild.Client.Dispatch
import DistBuild.Client.Reservations
import DistBuild.Compiler.LocalCommand
import DistBuild.Compiler.DashISpelling
import DistBuild.Compiler.DepFlags
import DistBuild.Storage.LruOverflow
import DistBuild.DepFiles.RoundTrip
import DistBuild.DepFiles.ReplaceAll
import DistBuild.DepFiles.Positions
import DistBuild.DepFiles.WriteRead
import DistBuild.DepFiles.MakeRules
import DistBuild.DepFiles.SystemHeaders
import DistBuild.Compiler.Pipes
import DistBuild.Server.Capacity
import DistBuild.Server.CommandLine
import DistBuild.Server.IncludeOptions
import DistBuild.Server.ChunkOrder
import DistBuild.Server.Mutexes
import DistBuild.Server.NameMapping
import DistBuild.Server.Containment
import DistBuild.Server.SourceSpelling
import DistBuild.Transport.Delivery
import DistBuild.Result.OverWire
import DistBuild.Server.Jobs
import DistBuild.Client.Listener
import DistBuild.Server.FrontDoor
import DistBuild.Client.IpcService
import DistBuild.Server.CutRequests
import DistBuild.Offload.Answers
