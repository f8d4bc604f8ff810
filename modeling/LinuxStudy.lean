import LinuxStudy.OrdMap
import LinuxStudy.Grouping
import LinuxStudy.Runs
import LinuxStudy.Bytes
import LinuxStudy.SharedSlot
import LinuxStudy.Framing
import LinuxStudy.Marks
import LinuxStudy.Links
import LinuxStudy.Recency
import LinuxStudy.LinkedMap
import LinuxStudy.HeapOrder
import LinuxStudy.FirstSeen
import LinuxStudy.RingArray
import LinuxStudy.StableSort
import LinuxStudy.InPlace
import LinuxStudy.IntArith
import LinuxStudy.ConsistentHash
import LinuxStudy.BackUpServer
import LinuxStudy.RingLookup
import LinuxStudy.LRUCache
import LinuxStudy.LRURefinement
import LinuxStudy.CacheServer
import LinuxStudy.CacheRequest
import LinuxStudy.CacheCluster
import LinuxStudy.CacheMigration
import LinuxStudy.CacheRecovery
import LinuxStudy.ReadySockets
import LinuxStudy.TakeoutData
import LinuxStudy.Socket
import LinuxStudy.SockAddr
import LinuxStudy.UnblockRead
import LinuxStudy.UnblockReadCall
import LinuxStudy.MasterHandler
import LinuxStudy.ListCommands
import LinuxStudy.MasterJoin
import LinuxStudy.MasterRemoval
import LinuxStudy.MasterReply
import LinuxStudy.SpareMaster
import LinuxStudy.MasterRegistry
import LinuxStudy.MasterRounds
import LinuxStudy.MiniLru
import LinuxStudy.MiniBuffer
import LinuxStudy.BufferQueue
import LinuxStudy.MiniRequest
import LinuxStudy.MiniConnection
import LinuxStudy.NodeConHash
import LinuxStudy.MachineRemoval
import LinuxStudy.MiniRegistry
import LinuxStudy.CacheRegistry
import LinuxStudy.Timer
import LinuxStudy.TimerHeap
import LinuxStudy.TimerRuns
import LinuxStudy.TimerRoot
import LinuxStudy.TimerExpiry
import LinuxStudy.TimerAccess
import LinuxStudy.MiniManager
import LinuxStudy.NetServer
import LinuxStudy.OneShot
import LinuxStudy.ThreadPool
import LinuxStudy.ThreadPoolCounters
import LinuxStudy.MiniThreadPool
import LinuxStudy.SafeQueue
import LinuxStudy.WriterClient
import LinuxStudy.AddressSplit
import LinuxStudy.BubbleSort
import LinuxStudy.InsertSort
import LinuxStudy.MergeSort
import LinuxStudy.QuickSort
import LinuxStudy.HeapSort
import LinuxStudy.HeapArrangements
import LinuxStudy.CountingSort
import LinuxStudy.RadixSort
import LinuxStudy.BucketSort
import LinuxStudy.LogFile
import LinuxStudy.ChatRoom
import LinuxStudy.SelectSort
import LinuxStudy.ShellSort
import LinuxStudy.Heapify
import LinuxStudy.Writen
import LinuxStudy.MasterCounts
import LinuxStudy.CString
import LinuxStudy.HttpConn
import LinuxStudy.HttpChunks
import LinuxStudy.HttpRequest
import LinuxStudy.HttpAnswer
import LinuxStudy.HttpWrite
import LinuxStudy.TimerList
import LinuxStudy.DueTimers
import LinuxStudy.WebServer
import LinuxStudy.HttpAccounts
import LinuxStudy.ApueDb
import LinuxStudy.Chains
import LinuxStudy.DbRecords
import LinuxStudy.DbStore
import LinuxStudy.DbNext
