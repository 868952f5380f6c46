import Utsuite.ByteWords
import Utsuite.StreamDecoder
import Utsuite.LengthHeaderCodec
import Utsuite.Sse
import Utsuite.Rand48
import Utsuite.ByteMem
import Utsuite.HelloPow
import Utsuite.HelloPowDeterminism
import Utsuite.NodeServer
import Utsuite.LoopBuf
import Utsuite.LoopBufQueue
import Utsuite.Hoare
import Utsuite.Wallet
import Utsuite.KeyPool
import Utsuite.WalletFile
import Utsuite.WalletDump
import Utsuite.BitPack
import Utsuite.Equihash
import Utsuite.EquihashCodec
import Utsuite.EquihashTree
import Utsuite.EquihashVerify
import Utsuite.EquihashBasic
import Utsuite.CarryStack
import Utsuite.EquihashOptimised
import Utsuite.EquihashRecreate
import Utsuite.ConnectionPool
import Utsuite.NodeQuery
import Utsuite.ChangePassphrase
import Utsuite.HelloCrc
import Utsuite.LockMode
import Utsuite.Base58
import Utsuite.DumpText
import Utsuite.HexText
import Utsuite.PropertyTree
import Utsuite.RawTransaction
import Utsuite.ScriptSign
import Utsuite.SignRawTransaction
import Utsuite.WalletRoundTrip
import Utsuite.WalletKeys
import Utsuite.Base58Codec
import Utsuite.Coins
import Utsuite.CombineMultisig
import Utsuite.CombineSignatures
import Utsuite.IdleServer
import Utsuite.Interleaving
import Utsuite.IsMine
import Utsuite.LoopBufConcurrent
import Utsuite.NodeReply
import Utsuite.CellArray
import Utsuite.Destination
import Utsuite.EquihashMinimal
import Utsuite.FallibleCalls
import Utsuite.HelloPowMemory
import Utsuite.LoopBufPop
import Utsuite.LoopBufPush
import Utsuite.NodeConnections
import Utsuite.Prevector
import Utsuite.PrevectorRefines
import Utsuite.Der
import Utsuite.FileCommands
import Utsuite.ImportKey
import Utsuite.PrivKey
import Utsuite.PushAll
import Utsuite.ScriptNum
import Utsuite.SigEncoding
import Utsuite.SignedPayload
import Utsuite.AddressGroupings
import Utsuite.BlockChain
import Utsuite.BufferedFile
import Utsuite.CoinRecord
import Utsuite.DataStream
import Utsuite.ExtKey
import Utsuite.Merkle
import Utsuite.PageLocker
import Utsuite.Amounts
import Utsuite.HelloPowRotation
import Utsuite.DecimalText
import Utsuite.BaseText
