import Pysync.TransitionRun
import Pysync.PyErr
import Pysync.MapModel
import Pysync.MapSection
import Pysync.MapUnique
import Pysync.ListAtMostOne
import Pysync.MapLinear
import Pysync.ChannelCore
import Pysync.ChannelModel
import Pysync.ChannelStep
import Pysync.ChannelDelivery
import Pysync.ChannelClose
import Pysync.ChannelDrain
import Pysync.ChannelFinal
import Pysync.FutureModel
import Pysync.PoolModel
import Pysync.PoolTasks
import Pysync.ActorModel
import Pysync.ActorStep
import Pysync.ActorLedger
import Pysync.ActorFutures
import Pysync.ActorClosing
import Pysync.ActorSurvival
import Pysync.ActorBacklog
import Pysync.ActorOrphans
import Pysync.ActorStop
import Pysync.ActorOutcome
import Pysync.PoolRuns
import Pysync.PoolShutdown
import Pysync.PoolCancel
import Pysync.PoolBorrow
import Pysync.ActorSelfSend
import Pysync.GroupModel
import Pysync.GroupJoin
import Pysync.AttributeGuard
import Pysync.TeardownDeadlock
import Pysync.ClassMap
import Pysync.MapEntries
import Pysync.MapSolo
import Pysync.MapRefine
import Pysync.DictModel
import Pysync.DictRefine
import Pysync.MapLedger
import Pysync.DictShared
import Pysync.DictConserve
import Pysync.LockModel
import Pysync.LockReentrancy
import Pysync.MapRaise
import Pysync.MapSnapshot
import Pysync.MapReflexive
import Pysync.DictEmpty
import Pysync.ChannelSelect
import Pysync.ChannelReport
import Pysync.ChannelTimeout
import Pysync.ChannelFinished
import Pysync.GroupErrors
import Pysync.MapBuckets
import Pysync.MapRetry
import Pysync.AttributeInit
import Pysync.ChannelDuration
import Pysync.DictEqual
import Pysync.DictCompound
import Pysync.DictTolerant
import Pysync.AtomicModel
import Pysync.AtomicAccount
import Pysync.AtomicOrder
import Pysync.LockExclusion
import Pysync.PoolDrain
import Pysync.ChannelProgress
import Pysync.MapRegister
import Pysync.ActorDrain
import Pysync.DictRetry
import Pysync.GroupDrain
import Pysync.Linearization
import Pysync.MapLinearizable
import Pysync.DictLinearizable
import Pysync.LockOrder
