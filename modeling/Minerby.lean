import Minerby.StepSystem
import Minerby.Countdown
import Minerby.Projection
import Minerby.Cadence
import Minerby.ParallelFill
import Minerby.Exposition
import Minerby.ByteOrder
import Minerby.Hex
import Minerby.ByteValue
import Minerby.HexCodec
import Minerby.Numeral
import Minerby.Purge
import Minerby.BlockStream
import Minerby.StrideScan
import Minerby.Sha256Spec
import Minerby.Sha256
import Minerby.Sha256Correct
import Minerby.Target
import Minerby.TargetValue
import Minerby.CompactTarget
import Minerby.MoneroTarget
import Minerby.ShareTarget
import Minerby.StratumWork
import Minerby.StratumHeader
import Minerby.Json
import Minerby.Config
import Minerby.PoolOverride
import Minerby.TcpClient
import Minerby.TcpConnect
import Minerby.Terminated
import Minerby.LineFraming
import Minerby.StratumV1Client
import Minerby.MoneroClient
import Minerby.MoneroJob
import Minerby.PoolClient
import Minerby.PollFaults
import Minerby.ReceiveBound
import Minerby.RejectedJob
import Minerby.SubmitHeader
import Minerby.DroppedConnection
import Minerby.StratumSession
import Minerby.ExtranonceRange
import Minerby.Extranonce2
import Minerby.HeldNotify
import Minerby.Handshake
import Minerby.Authenticated
import Minerby.SubmitAccounting
import Minerby.RateWindow
import Minerby.SendLines
import Minerby.HttpMessage
import Minerby.HttpResponse
import Minerby.HttpServer
import Minerby.MetricsPage
import Minerby.StatsStore
import Minerby.LifetimeTotals
import Minerby.MinerPool
import Minerby.WorkPickup
import Minerby.WorkerTurn
import Minerby.PoolSound
import Minerby.GenuineShares
import Minerby.HashCount
import Minerby.PauseBarrier
import Minerby.HasherRebuild
import Minerby.NonceScan
import Minerby.FirstPass
import Minerby.HeldJobs
import Minerby.Checkpoints
import Minerby.CallsReturn
import Minerby.StaleWork
import Minerby.Rig
import Minerby.DatasetInit
import Minerby.ContextBuild
import Minerby.SeededContext
import Minerby.Rekey
import Minerby.SeedInForce
import Minerby.MainLoop
import Minerby.SubmitSession
import Minerby.LoopTimers
import Minerby.LoopExit
import Minerby.MinerRefines
import Minerby.ProgramSafety
import Minerby.ShareLines
import Minerby.Shutdown
import Minerby.ShownMetrics
