import LinkManagement.Video.BufferRefinement
import LinkManagement.Lib.CyclicArray
import LinkManagement.Lib.MachineInt
import LinkManagement.Video.SendPacket
import LinkManagement.Lib.Chunks
import LinkManagement.Video.WriteBytes
import LinkManagement.Video.StorePacket
import LinkManagement.Video.Occupancy
import LinkManagement.Lib.Framing
import LinkManagement.Lib.CString
import LinkManagement.Video.VideoSendLoop
import LinkManagement.Video.TestClient
import LinkManagement.Video.Relay
import LinkManagement.Video.SharedBuffer
import LinkManagement.Video.SpaceCall
import LinkManagement.Video.InitLoop
import LinkManagement.Video.Sessions
import LinkManagement.Video.WaitInit
import LinkManagement.Video.DatagramKinds
import LinkManagement.Video.Handshake
import LinkManagement.Android.AndroidServer
import LinkManagement.Android.Messages
import LinkManagement.Video.RelayProgress
import LinkManagement.Video.SharedRefinement
import LinkManagement.Video.Fifo
import LinkManagement.Lib.LossyPipe
import LinkManagement.Video.EmptyCall
import LinkManagement.Video.InterleavedRelay
import LinkManagement.Video.SessionSafety
import LinkManagement.Lib.Admission
import LinkManagement.Video.RunServer
import LinkManagement.Android.OpenFiles
import LinkManagement.Android.SendLines
import LinkManagement.Android.ReadThread
import LinkManagement.Lib.Decimal
import LinkManagement.Video.CommandLine
import LinkManagement.Video.Hops
