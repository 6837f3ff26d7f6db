import YHAudioLink.Foundation.Runs
import YHAudioLink.Board.Playback
import YHAudioLink.Board.Overwrite
import YHAudioLink.Board.StreamFraming
import YHAudioLink.Board.SessionBoundary
import YHAudioLink.Board.StreamDestination
import YHAudioLink.Board.StaleCommands
import YHAudioLink.Link.Separation
import YHAudioLink.Pc.SessionCommands
import YHAudioLink.Pc.HeaderFirst
import YHAudioLink.Pc.BufferCalls
import YHAudioLink.Foundation.ByteStore
import YHAudioLink.Netif.Ethernetif
import YHAudioLink.Netif.FrameIsolation
import YHAudioLink.Netif.CardInput
import YHAudioLink.Foundation.Extents
import YHAudioLink.Mem.LibMem
import YHAudioLink.Mem.FreeList
import YHAudioLink.Mem.HeapInvariant
import YHAudioLink.Mem.HeapRuns
import YHAudioLink.Mem.LwipMem
import YHAudioLink.Enc28j60.Banks
import YHAudioLink.Enc28j60.Recovery
import YHAudioLink.Enc28j60.Reinit
import YHAudioLink.Enc28j60.FrameQueue
import YHAudioLink.Netif.SysTime
import YHAudioLink.Vs10xx.ChipSelect
import YHAudioLink.Vs10xx.Patch
import YHAudioLink.Vs10xx.Delivery
import YHAudioLink.Vs10xx.RestartPlay
import YHAudioLink.Mem.Calloc
import YHAudioLink.Netif.SendErrors
import YHAudioLink.Pc.Chunker
import YHAudioLink.Board.Delay
import YHAudioLink.Board.ReceiveQueue
import YHAudioLink.Kernel.OsLinearizable
import YHAudioLink.Foundation.Agenda
import YHAudioLink.Foundation.OnesComplement
import YHAudioLink.Foundation.Pieces
import YHAudioLink.Lwip.Datagram
import YHAudioLink.Lwip.FragDelivery
import YHAudioLink.Lwip.ReassRuns
import YHAudioLink.Lwip.Timers
