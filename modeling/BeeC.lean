import BeeC.ReplyStream
import BeeC.ReplyExtension
import BeeC.ObjectGrowth
import BeeC.DirectRoundTrip
import BeeC.AuthProof
import BeeC.RequestNumbers
import BeeC.RequestFormat
import BeeC.RequestIds
import BeeC.Upsert
import BeeC.UpdateExact
import BeeC.Io
import BeeC.IoConnect
import BeeC.IoReceive
import BeeC.IoSend
import BeeC.SteadySending
import BeeC.NetExchange
import BeeC.SteadyReceiving
import BeeC.BufFifo
import BeeC.TpReply
import BeeC.Iter
import BeeC.ObjectSimple
import BeeC.ObjectReadOnly
import BeeC.ObjectAtomic
import BeeC.ObjectClosing
import BeeC.ObjectVerify
import BeeC.TpFraming
import BeeC.TpReserve
import BeeC.TpSizes
import BeeC.SchemaOrder
import BeeC.SchemaSafety
import BeeC.SchemaSync
import BeeC.Login
import BeeC.Dir
import BeeC.SocketBuffer
import BeeC.LogEnd
import BeeC.TpPartial
import BeeC.SchemaMemoryLoading
import BeeC.AssocIter
import BeeC.Wire.SecureHash
import BeeC.Sha1Proof
import BeeC.Sha1Stream
import BeeC.PMurHashStream
import BeeC.Scramble
import BeeC.Client
import BeeC.TpRows
