import RecycleBin.Refinement
import RecycleBin.Ring
import RecycleBin.Bytes
import RecycleBin.Transition
import RecycleBin.GurlQueue
import RecycleBin.ThreadProto
import RecycleBin.ThreadRecord
import RecycleBin.ThreadPool
import RecycleBin.AntDns
import RecycleBin.AntHash
import RecycleBin.AntHashMap
import RecycleBin.AntQueue
import RecycleBin.GurlCal
import RecycleBin.RbTree
import RecycleBin.RbTreeRuns
import RecycleBin.UrlHandoff
import RecycleBin.GurlExpr
import RecycleBin.GurlLevels
import RecycleBin.GurlNum
import RecycleBin.AntArray
import RecycleBin.AntBuf
import RecycleBin.AntChunked
import RecycleBin.AntEventLoop
import RecycleBin.AntHead
import RecycleBin.AntRetry
import RecycleBin.GurlConf
import RecycleBin.GurlReference
import RecycleBin.ProcessPool
import RecycleBin.ProcessStream
import RecycleBin.Apportion
import RecycleBin.NgFailover
import RecycleBin.NgFair
import RecycleBin.NgSessions
import RecycleBin.NgWeights
import RecycleBin.NgDispatch
import RecycleBin.NgTokenRef
import RecycleBin.NgConfParse
import RecycleBin.GurlValues
import RecycleBin.AeFile
import RecycleBin.AeTime
import RecycleBin.ConnCopy
import RecycleBin.ConnReport
import RecycleBin.ConnWork
import RecycleBin.NgTried
import RecycleBin.NgRegister
import RecycleBin.AntFraming
import RecycleBin.GurlChain
import RecycleBin.JumpHash
import RecycleBin.NidsHash
import RecycleBin.AntQueueRuns
import RecycleBin.GasInt
import RecycleBin.GasAsm
import RecycleBin.TorStatus
import RecycleBin.TorConfine
import RecycleBin.AeDispatch
import RecycleBin.SmtpIsolation
import RecycleBin.GurlMachine
import RecycleBin.GurlArgs
import RecycleBin.GurlElement
import RecycleBin.NgParse
import RecycleBin.NgParseTime
import RecycleBin.RbTreeDelete
import RecycleBin.GurlAssign
import RecycleBin.GurlHeaders
import RecycleBin.GurlJson
import RecycleBin.GoSlice
import RecycleBin.NgTimeRange
import RecycleBin.NgInet
import RecycleBin.NgHostPort
import RecycleBin.NgListen
import RecycleBin.NgDuplicates
import RecycleBin.NgServer
import RecycleBin.ConnTime
import RecycleBin.AntUrl
import RecycleBin.AntSend
import RecycleBin.AntDomainCmp
import RecycleBin.AntQuery
import RecycleBin.AntDnsRecv
import RecycleBin.AntDnsThread
import RecycleBin.AntNameServer
import RecycleBin.AntArrayRuns
import RecycleBin.AntBufRuns
import RecycleBin.AntPageText
import RecycleBin.AntAddress
import RecycleBin.AntPage
import RecycleBin.AntRecord
import RecycleBin.AntFileName
import RecycleBin.ThreadRequest
import RecycleBin.ThreadPop
import RecycleBin.StrMatch
import RecycleBin.StrMatchSet
import RecycleBin.StrMatchChoice
import RecycleBin.TorString
import RecycleBin.Occurrence
import RecycleBin.StrDel
import RecycleBin.Tac
import RecycleBin.TacRuns
import RecycleBin.HoGetline
import RecycleBin.HoReadConf
import RecycleBin.HoStrtok
import RecycleBin.HoString
import RecycleBin.AntItoa
import RecycleBin.PointerStack
import RecycleBin.ThreadSwap
import RecycleBin.ThreadInt
import RecycleBin.AePoll
import RecycleBin.AeResize
import RecycleBin.ThreadCall
import RecycleBin.ThreadUser
import RecycleBin.ThreadSession
import RecycleBin.GasBits
import RecycleBin.HoCompare
import RecycleBin.AeKernel
import RecycleBin.TorLoop
import RecycleBin.ProcessLife
import RecycleBin.Wc
import RecycleBin.Ss
import RecycleBin.AntLook
import RecycleBin.Leetcode
import RecycleBin.Ds
import RecycleBin.GasUpper
import RecycleBin.AntText
