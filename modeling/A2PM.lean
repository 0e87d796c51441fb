import A2PM.Transition
import A2PM.SlotTable
import A2PM.MessageStream
import A2PM.MachineInt
import A2PM.Segmentation
import A2PM.FormattedText
import A2PM.SystemFeatures
import A2PM.ControllerData
import A2PM.ControllerRegistry
import A2PM.ControllerThreads
import A2PM.ControllerLocks
import A2PM.ControllerMailbox
import A2PM.ControllerHistory
import A2PM.ControllerPosts
import A2PM.ControllerDeadlock
import A2PM.ControllerStates
import A2PM.ControllerDescriptors
import A2PM.FuelLoop
import A2PM.Handshake
import A2PM.RateBuffer
import A2PM.RateAverages
import A2PM.BalancerRegistry
import A2PM.BalancerMemory
import A2PM.BalancerRouting
import A2PM.RoundRobin
import A2PM.BalancerCapacity
import A2PM.BalancerHandOver
import A2PM.ControllerEntries
import A2PM.Agreement
import A2PM.RecordStream
import A2PM.VmProtocol
import A2PM.Relay
import A2PM.Blocks
import A2PM.ForwardBuffer
import A2PM.BufferSizes
import A2PM.LeaderElection
import A2PM.LeaderRole
import A2PM.LeaderState
import A2PM.LeaderProposals
import A2PM.LeaderSend
import A2PM.Broadcast
import A2PM.LeaderThreads
import A2PM.LeaderAgreement
import A2PM.Aggregation
import A2PM.AggregationLaws
import A2PM.Numerals
import A2PM.TextInput
import A2PM.Connections
import A2PM.Dispatch
import A2PM.LinkedList
import A2PM.DatabaseParser
import A2PM.ParserSafety
import A2PM.AggregationSafety
import A2PM.Prediction
import A2PM.FeaturesText
import A2PM.Rejuvenation
import A2PM.DelimitedText
import A2PM.ApplyBeta
import A2PM.ErrorTables
import A2PM.ListOperations
import A2PM.ShellText
import A2PM.Framework
import A2PM.Report
import A2PM.MemInfo
import A2PM.Scaling
import A2PM.RandomRange
import A2PM.Anomalies
import A2PM.L1LeastSquares
import A2PM.LinearSolve
import A2PM.LassoShooting
import A2PM.LassoIteratedRidge
import A2PM.LassoGrafting
import A2PM.QuasiNewton
import A2PM.LassoNonNegativeSquared
import A2PM.Training
import A2PM.X86
import A2PM.SharedWord
import A2PM.Atomic
import A2PM.SpinLock
import A2PM.ThreadIds
import A2PM.FloatRounding
import A2PM.CpuUsage
import A2PM.RoundingError
import A2PM.ElapsedTime
import A2PM.PredictionRounding
import A2PM.RateRounding
