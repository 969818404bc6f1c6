import Barnacle.Mysql.Reframe
import Barnacle.Mysql.Numbering
import Barnacle.Mysql.Greeting
import Barnacle.Arena.Grace
import Barnacle.Arena.DoubleFree
import Barnacle.Arena.Reclaim
import Barnacle.Pipes.StaleLock
import Barnacle.Pipes.Conservation
import Barnacle.Pipes.Stream
import Barnacle.Pipes.Restart
import Barnacle.Daemon.Accounting
import Barnacle.Daemon.Publication
import Barnacle.Daemon.Hosts
import Barnacle.Daemon.Reload
import Barnacle.Daemon.Listing
import Barnacle.Daemon.Lookup
import Barnacle.Agent.Agreement
import Barnacle.Agent.Realign
import Barnacle.Agent.Reuse
import Barnacle.Agent.Bounds
import Barnacle.Agent.Commands
import Barnacle.Valkey.Client
import Barnacle.Valkey.Exchange
import Barnacle.Tool.Record
import Barnacle.Daemon.Options
import Barnacle.Tool.Launch
import Barnacle.Daemon.Lifecycle
import Barnacle.Tool.Rollout
import Barnacle.Daemon.Cache
import Barnacle.Daemon.Control
import Barnacle.Pipes.Splice
import Barnacle.Pipes.Serving
import Barnacle.Tool.Status
import Barnacle.Fleet.Transparency
