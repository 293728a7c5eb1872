import MemX.StoreCount
import MemX.StoreRefine
import MemX.StoreScan
import MemX.PersistLog
import MemX.PersistRestart
import MemX.PersistLimits
import MemX.CommandOutcome
import MemX.CommandCap
import MemX.ServerCrash
import MemX.ServerDrain
import MemX.RespReplyView
import MemX.RespFrame
import MemX.ServerFrames
import MemX.CommandDeadlock
import MemX.StoreSerial
import MemX.StoreDeadline
import MemX.CommandCounter
import MemX.CommandDeadline
import MemX.StoreSweep
import MemX.CommandKeys
import MemX.CommandNames
import MemX.CommandSet
import MemX.StoreGlobMatch
import MemX.RespGrammar
import MemX.RespInline
import MemX.RespChecked
import MemX.CliTokenize
import MemX.StoreTracked
import MemX.StoreHeap
import MemX.RespWriter
import MemX.PersistAppend
import MemX.ServerBuffers
import MemX.CliClient
import MemX.StoreConcurrent
import MemX.ServerShutdown
import MemX.MemxUrl
import MemX.ServerListen
import MemX.CliSession
import MemX.PersistLives
import MemX.AgentClassify
