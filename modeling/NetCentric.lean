import NetCentric.Transition
import NetCentric.CInt
import NetCentric.Threads
import NetCentric.Sections
import NetCentric.Counter
import NetCentric.SharedNumber
import NetCentric.Semaphores
import NetCentric.ProcessSemaphore
import NetCentric.BoundedBuffer
import NetCentric.BufferInvariant
import NetCentric.BufferSum
import NetCentric.BufferProgress
import NetCentric.PartialSum
import NetCentric.ThreadCreation
import NetCentric.BufferCreation
import NetCentric.ProcessSum
import NetCentric.LinkedCells
import NetCentric.MessageQueue
import NetCentric.CString
import NetCentric.Scanf
import NetCentric.Lines
import NetCentric.Request
import NetCentric.Url
import NetCentric.Program
import NetCentric.Faults
import NetCentric.Calls
import NetCentric.Relay
import NetCentric.ContentLength
import NetCentric.Tunnel
import NetCentric.Session
import NetCentric.Handler
import NetCentric.Outcome
import NetCentric.SentRequest
import NetCentric.ConnectionHeader
import NetCentric.Malformed
import NetCentric.Destination
import NetCentric.Decimal
import NetCentric.Capacity
import NetCentric.Pipe
import NetCentric.Fifo
import NetCentric.Hangup
import NetCentric.Sequential
import NetCentric.ProcessTree
import NetCentric.FileTable
import NetCentric.InheritedFiles
import NetCentric.Handoff
import NetCentric.ThreadServer
import NetCentric.QueueOrder
import NetCentric.QueueProgress
import NetCentric.LogFile
import NetCentric.LogFormat
import NetCentric.Segmentation
import NetCentric.Agreement
import NetCentric.History
import NetCentric.Undefined
import NetCentric.Resources
import NetCentric.ThreadFiles
import NetCentric.Accounting
import NetCentric.LogReading
import NetCentric.Isolation
import NetCentric.EchoClient
import NetCentric.UdpEcho
import NetCentric.Readnbytes
import NetCentric.Rio
import NetCentric.RioStream
import NetCentric.Getopt
import NetCentric.P01
import NetCentric.P01Count
import NetCentric.P01Agreement
import NetCentric.P01Files
