import Caesar.Lib.Codec
import Caesar.Lib.PairTree
import Caesar.Lib.Coins
import Caesar.Crypto
import Caesar.Lib.Limbs
import Caesar.Lib.Delivery
import Caesar.Lib.OrdMap
import Caesar.Lib.Text
import Caesar.Lib.Interleave
import Caesar.Lib.OrderStat
import Caesar.Lib.Ipv4
import Caesar.Lib.Bits
import Caesar.Transaction
import Caesar.Block
import Caesar.HdWallet
import Caesar.Timestamp
import Caesar.Chain
import Caesar.Mempool
import Caesar.Removal
import Caesar.Node
import Caesar.Relay
import Caesar.Wire
import Caesar.Announce
import Caesar.Sessions
import Caesar.Peers
import Caesar.Storage
import Caesar.Wallet
import Caesar.Payout
import Caesar.Otp
import Caesar.Cache
import Caesar.PoolState
import Caesar.Pool
import Caesar.PoolWorker
import Caesar.FormatSound
import Caesar.UtxoSound
import Caesar.BlockSound
import Caesar.ChainSound
import Caesar.SupplySound
import Caesar.IssuanceSound
import Caesar.LedgerSound
import Caesar.ConsensusSound
import Caesar.CommitSound
import Caesar.TxidSound
import Caesar.WorkSound
import Caesar.DifficultySound
import Caesar.NodeSound
import Caesar.StorageSound
import Caesar.CanonicalSound
import Caesar.ForkSound
import Caesar.RelaySound
import Caesar.WireSound
import Caesar.MempoolSound
import Caesar.AdmissionSound
import Caesar.CoherenceSound
import Caesar.AnnounceSound
import Caesar.MiningSound
import Caesar.ReorgSound
import Caesar.LimitSound
import Caesar.RemovalSound
import Caesar.OrderSound
import Caesar.VettedSound
import Caesar.SurvivorSound
import Caesar.BuildSound
import Caesar.Messages
import Caesar.PeerManager
import Caesar.MessagesSound
import Caesar.PeerManagerSound
import Caesar.DiscoverySound
import Caesar.AdvertiseSound
import Caesar.BanSound
import Caesar.ServeSound
import Caesar.Lib.InPlace
import Caesar.Batch
import Caesar.BatchSound
import Caesar.Append
import Caesar.AppendSound
import Caesar.WalletSound
import Caesar.PayoutSound
import Caesar.Lib.ProRata
import Caesar.AmountSound
import Caesar.SyncSound
import Caesar.SessionSound
import Caesar.PeerSound
import Caesar.OtpSound
import Caesar.CacheSound
import Caesar.LocatorSound
import Caesar.PoolStateSound
import Caesar.PoolSound
import Caesar.WorkerSound
import Caesar.ShareSound
import Caesar.JobSound
import Caesar.UsersSound
import Caesar.Vault
import Caesar.Auth
import Caesar.AuthSound
import Caesar.Lib.Json
import Caesar.Send
import Caesar.SendSound
import Caesar.VaultSound
import Caesar.RateSound
import Caesar.TargetSound
import Caesar.PathSound
import Caesar.MnemonicSound
import Caesar.RecoverySound
import Caesar.SigningSound
import Caesar.AddressSound
import Caesar.DescendantSound
import Caesar.PoolWorkerSound
import Caesar.PeerTableSound
import Caesar.NonceSound
import Caesar.Lib.Windows
import Caesar.Limiter
import Caesar.LimiterSound
import Caesar.Lib.Flood
import Caesar.Gossip
import Caesar.GossipSound
import Caesar.PoolGossipSound
import Caesar.RoundsSound
import Caesar.Lib.Timed
import Caesar.Handshake
import Caesar.HandshakeSound
import Caesar.Lib.Durable
import Caesar.PowerLoss
import Caesar.PowerLossSound
import Caesar.PaymentSound
import Caesar.Lib.Dialogue
import Caesar.MeetingSound
