import Jubilee.Common.Slice
import Jubilee.Common.ByteBuf
import Jubilee.Common.Thread
import Jubilee.Common.Run
import Jubilee.Common.Written
import Jubilee.Common.Typestate
import Jubilee.Common.Fallible
import Jubilee.Common.LazyCell
import Jubilee.Common.Shared
import Jubilee.Common.SharedCell
import Jubilee.Common.Flag
import Jubilee.Common.Table
import Jubilee.Common.Assign
import Jubilee.Common.Split
import Jubilee.Common.Utf8
import Jubilee.Common.Act
import Jubilee.Common.Relate
import Jubilee.Common.Noted
import Jubilee.Common.Quote
import Jubilee.Runtime.Java
import Jubilee.Runtime.Ruby
import Jubilee.Runtime.Vertx
import Jubilee.RackInput.Model
import Jubilee.RackInput.Outline
import Jubilee.RackInput.Ends
import Jubilee.RackInput.Gets
import Jubilee.RackInput.Read
import Jubilee.RackInput.Session
import Jubilee.RackInput.Each
import Jubilee.RackInput.Drain
import Jubilee.RackInput.Progress
import Jubilee.RackInput.Capped
import Jubilee.RackInput.Buffer
import Jubilee.RackInput.Sequential
import Jubilee.RackEnv.Model
import Jubilee.RackEnv.Operations
import Jubilee.RackEnv.Fill
import Jubilee.RackEnv.Cells
import Jubilee.RackEnv.Reads
import Jubilee.RackEnv.Writes
import Jubilee.RackEnv.Eager
import Jubilee.RackEnv.Excluded
import Jubilee.RackEnv.Joined
import Jubilee.RackEnv.GetEnv
import Jubilee.RackEnv.Multithread
import Jubilee.RackEnv.ServerValues
import Jubilee.RackEnv.ContentLength
import Jubilee.RackEnv.HostInfo
import Jubilee.RackEnv.HeaderName
import Jubilee.RackEnv.Threads
import Jubilee.RackEnv.Unforged
import Jubilee.RackEnv.Conforms
import Jubilee.RackEnv.Respelled
import Jubilee.Response.Model
import Jubilee.Response.Recorded
import Jubilee.Response.Framing
import Jubilee.Response.Bytes
import Jubilee.Response.Chunks
import Jubilee.Response.RoundTrip
import Jubilee.Response.Forwarded
import Jubilee.Response.Related
import Jubilee.Response.HeaderCase
import Jubilee.RackApplication.Model
import Jubilee.RackApplication.Finished
import Jubilee.RackApplication.Related
import Jubilee.RackApplication.HeaderCase
import Jubilee.RackApplication.Closed
import Jubilee.RackApplication.Program
import Jubilee.RackApplication.Broken
import Jubilee.RackApplication.Answered
import Jubilee.RackApplication.Server
import Jubilee.RackApplication.Alone
import Jubilee.RackApplication.Respelled
import Jubilee.RackApplication.Lifecycle
import Jubilee.RackApplication.Relayed
import Jubilee.RackApplication.Bodiless
import Jubilee.NetSocket.Model
import Jubilee.NetSocket.Kept
import Jubilee.NetSocket.Ends
import Jubilee.NetSocket.Read
import Jubilee.NetSocket.Write
import Jubilee.NetSocket.Backpressure
import Jubilee.Startup.Scripts
import Jubilee.Startup.Manager
import Jubilee.Startup.Address
import Jubilee.Startup.Configuration
import Jubilee.Startup.Settings
import Jubilee.Startup.Precedence
import Jubilee.Startup.Verticle
import Jubilee.Startup.Scheme
