import MessageBoard.ReplicationRoundTrip
import MessageBoard.WakeupGrouping
import MessageBoard.LogicalClock
import MessageBoard.JoinDuplicates
import MessageBoard.PublishRead
import MessageBoard.RmbMain
import MessageBoard.JoinMeet
import MessageBoard.JoinConnections
import MessageBoard.RegistrationCodec
import MessageBoard.IdservReply
import MessageBoard.ServerListCodec
import MessageBoard.ClockIncrease
import MessageBoard.AnswerTest
import MessageBoard.ReplyPrinting
import MessageBoard.PolledDescriptors
import MessageBoard.DescriptorOwnership
import MessageBoard.DatagramDispatch
import MessageBoard.RegistryEntries
import MessageBoard.ReplyWindow
import MessageBoard.SearchBlock
import MessageBoard.ParseTermination
import MessageBoard.MatrixOwnership
import MessageBoard.ReplyBuffers
import MessageBoard.PartialWrites
import MessageBoard.MessageLineCodec
import MessageBoard.PeerStore
import MessageBoard.SelectPreparation
import MessageBoard.JoinOutcome
import MessageBoard.ListRequest
import MessageBoard.BanTime
import MessageBoard.ReceiveBuffer
import MessageBoard.ScannedFields
import MessageBoard.RetainedReplies
import MessageBoard.ListNodes
import MessageBoard.ServerSelection
import MessageBoard.BannedList
import MessageBoard.SenderOrder
import MessageBoard.Agreement
import MessageBoard.RmbSelected
import MessageBoard.RmbExit
import MessageBoard.EndToEnd
import MessageBoard.IdservAtomic
import MessageBoard.Directory
import MessageBoard.MsgservLog
