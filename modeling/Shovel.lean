import Shovel.Library.Outcome
import Shovel.Library.Machine
import Shovel.Library.Calls
import Shovel.Library.Progress
import Shovel.Library.LittleEndian
import Shovel.Library.Scanner
import Shovel.Library.Synchronisation
import Shovel.Library.TokenStreams
import Shovel.Library.Fifo
import Shovel.Library.Ring
import Shovel.Library.Population
import Shovel.Parsers.DataHead
import Shovel.Parsers.ParserExample
import Shovel.Parsers.Scan
import Shovel.Parsers.Framing
import Shovel.Parsers.Accounting
import Shovel.Parsers.Garbage
import Shovel.Parsers.Forwarding
import Shovel.Parsers.Resynchronisation
import Shovel.Containers.QueueBase
import Shovel.Containers.RingQueue
import Shovel.Containers.RingQueueFifo
import Shovel.Containers.Decorators
import Shovel.Containers.Syncs
import Shovel.Containers.History
import Shovel.Containers.BlockingCalls
import Shovel.Containers.Linearized
import Shovel.Containers.Wakeups
import Shovel.Containers.Settling
import Shovel.Containers.Unlocked
import Shovel.Containers.ManyWriters
import Shovel.Containers.SizedArray
import Shovel.Network.TCPSocket
import Shovel.Network.SocketLife
import Shovel.Network.SharedSocket
import Shovel.Network.SharedClosing
import Shovel.Network.TCPClient
import Shovel.Network.TCPServer
import Shovel.Network.AcceptLoops
import Shovel.Network.AcceptThreads
import Shovel.Network.ServerStop
import Shovel.Network.MasterSocket
import Shovel.Local.LocalSocket
import Shovel.Local.LocalSocketLife
import Shovel.Workers.TCPSocketWorker
import Shovel.Workers.ConnectionWorker
import Shovel.Workers.Datagrams
import Shovel.Workers.ReadThread
import Shovel.Workers.ReadWithoutParser
import Shovel.Workers.ReadStop
import Shovel.Workers.WriteThread
import Shovel.Workers.WriteProgress
import Shovel.Workers.WriteStop
import Shovel.Workers.NextCalls
import Shovel.Workers.Link
import Shovel.Workers.LinkProgress
import Shovel.Workers.LocalLink
import Shovel.Workers.ParsedLocalLink
import Shovel.Workers.Destruction
import Shovel.Workers.DestructionEnd
import Shovel.Workers.PostMortem
import Shovel.Subprocesses.Loop
import Shovel.Subprocesses.Subprocess
