import NetworkCode.Core.Transition
import NetworkCode.Core.Chain
import NetworkCode.ThreadPool.State
import NetworkCode.Core.Lists
import NetworkCode.ThreadPool.Accounting
import NetworkCode.ThreadPool.Attendance
import NetworkCode.ThreadPool.Queue
import NetworkCode.ThreadPool.Shutdown
import NetworkCode.Core.LineStream
import NetworkCode.Core.Prog
import NetworkCode.Httpd.State
import NetworkCode.Httpd.Server
import NetworkCode.Httpd.Reader
import NetworkCode.Httpd.Request
import NetworkCode.Httpd.Serving
import NetworkCode.Httpd.HeaderBoundary
import NetworkCode.Httpd.CgiAdd
import NetworkCode.Core.SqlText
import NetworkCode.Core.LineEnds
import NetworkCode.Httpd.GetLine
import NetworkCode.Httpd.CgiSql
import NetworkCode.Httpd.Framing
import NetworkCode.Httpd.Disconnect
import NetworkCode.Httpd.Response
import NetworkCode.Core.LexicalPath
import NetworkCode.Httpd.Confinement
import NetworkCode.Chat.State
import NetworkCode.Chat.Table
import NetworkCode.Chat.Relay
import NetworkCode.Epoll.State
import NetworkCode.Epoll.Ownership
import NetworkCode.Core.Ring
import NetworkCode.LinuxChat.Pool
import NetworkCode.LinuxChat.Fifo
import NetworkCode.Core.Text
import NetworkCode.Core.OrderedMap
import NetworkCode.LinuxChat.Server
import NetworkCode.LinuxChat.Threads
import NetworkCode.LinuxChat.Broadcast
import NetworkCode.LinuxChat.Registration
import NetworkCode.LinuxChat.Wedge
import NetworkCode.LinuxChat.History
import NetworkCode.LinuxChat.Client
import NetworkCode.LinuxChat.Integrity
import NetworkCode.Weather.State
import NetworkCode.Weather.Counting
import NetworkCode.Weather.Mailing
import NetworkCode.NetWorkSniffer.Packet
import NetworkCode.LinuxChat.Producer
import NetworkCode.PthreadServer.State
import NetworkCode.PthreadServer.Handover
import NetworkCode.Httpd.ContentLength
import NetworkCode.Httpd.BodyForwarding
import NetworkCode.Httpd.RequestLine
import NetworkCode.Httpd.DirectoryUrl
import NetworkCode.Core.Slots
import NetworkCode.Chat.Round
import NetworkCode.Chat.Bounds
import NetworkCode.Chat.Interests
import NetworkCode.Chat.Closing
import NetworkCode.Chat.Composition
import NetworkCode.LinuxChat.Iterator
import NetworkCode.LinuxChat.Keys
import NetworkCode.LinuxChat.Receiving
import NetworkCode.LinuxChat.Friends
import NetworkCode.Weather.Registering
import NetworkCode.Weather.Forecast
import NetworkCode.ThreadPool.Staffing
import NetworkCode.Weather.Crawling
import NetworkCode.Httpd.FormSplit
import NetworkCode.Httpd.PostData
import NetworkCode.Httpd.Adding
import NetworkCode.Core.Hex
import NetworkCode.NetWorkSniffer.Dump
import NetworkCode.NetWorkSniffer.Lossless
import NetworkCode.NetWorkSniffer.Captured
import NetworkCode.NetWorkSniffer.Tally
import NetworkCode.LinuxChat.Construction
import NetworkCode.LinuxChat.Buffer
import NetworkCode.LinuxChat.Screen
import NetworkCode.ThreadPool.Destroying
import NetworkCode.Core.Potential
import NetworkCode.Core.Handles
import NetworkCode.Core.Holding
import NetworkCode.Core.Triple
import NetworkCode.Httpd.Accepting
import NetworkCode.LinuxChat.Delivery
import NetworkCode.ThreadPool.Draining
import NetworkCode.Chat.Client
import NetworkCode.Chat.EndToEnd
import NetworkCode.Core.Decoding
import NetworkCode.Core.Publication
import NetworkCode.Libevent.Dispatch
import NetworkCode.NetWorkSniffer.LogFile
import NetworkCode.Weather.Publishing
import NetworkCode.Httpd.Submitting
import NetworkCode.LinuxChat.EndToEnd
import NetworkCode.PthreadServer.Echoing
import NetworkCode.Core.FormText
import NetworkCode.Epoll.Latest
import NetworkCode.Weather.Subscribing
import NetworkCode.NetWorkSniffer.Session
import NetworkCode.OneToOne.Screens
import NetworkCode.Weather.Recipients
