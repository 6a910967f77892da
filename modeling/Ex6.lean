import Ex6.Lib.Machine
import Ex6.Lib.Loop
import Ex6.Lib.CString
import Ex6.Lib.Chain
import Ex6.Lib.Mutex
import Ex6.Lib.Membership
import Ex6.Lib.Line
import Ex6.Lib.Peers
import Ex6.Lib.Blocks
import Ex6.Text
import Ex6.Queue
import Ex6.QueueHistory
import Ex6.QueueGuard
import Ex6.QueueNodes
import Ex6.Monitor
import Ex6.ActiveObject
import Ex6.Cancel
import Ex6.Reactor
import Ex6.HighestFd
import Ex6.Singleton
import Ex6.Guards
import Ex6.SelectServer
import Ex6.Registration
import Ex6.SelectRun
import Ex6.SelectInvariants
import Ex6.SelectBroadcast
import Ex6.SelectSafety
import Ex6.SelectMessages
import Ex6.SelectLog
import Ex6.PeerAddress
import Ex6.Pipeline
import Ex6.Lifetime
import Ex6.Stages
import Ex6.PipelineOrder
import Ex6.PipelineMessages
import Ex6.PipelineBuffers
import Ex6.PipelineProgress
import Ex6.Listener
import Ex6.Framing
import Ex6.Disconnect
import Ex6.Client
import Ex6.ClientInput
import Ex6.ClientLoop
import Ex6.Lib.Linearizable
import Ex6.Lib.Simulation
import Ex6.QueueCalls
import Ex6.PipelineThreads
import Ex6.PipelineSchedules
import Ex6.Sessions
import Ex6.Lib.Shares
import Ex6.QueueScripts
import Ex6.GuardedCalls
import Ex6.ChatSessions
import Ex6.ChatSchedules
import Ex6.ChatBacklog
import Ex6.Lib.Attempts
import Ex6.StartUp
import Ex6.SessionSchedules
import Ex6.GuardPrograms
import Ex6.SessionPlaces
