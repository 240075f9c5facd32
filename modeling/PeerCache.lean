import PeerCache.OrderedDictProofs
import PeerCache.ByteMemoryProofs
import PeerCache.TilingProofs
import PeerCache.PoolProofs
import PeerCache.LruProofs
import PeerCache.HashRingProofs
import PeerCache.FirstSeenProofs
import PeerCache.PreferenceListProofs
import PeerCache.StructCodecProofs
import PeerCache.SlotHeaderProofs
import PeerCache.TransitionProofs
import PeerCache.SlotRegionProofs
import PeerCache.SlotBatchProofs
import PeerCache.SlotFootprintProofs
import PeerCache.SlotmapRaceProofs
import PeerCache.LandingProofs
import PeerCache.SlotPublishProofs
import PeerCache.DirectoryProofs
import PeerCache.PoolContentProofs
import PeerCache.P2pRaceProofs
import PeerCache.DiskStoreProofs
import PeerCache.PageOwnerProofs
import PeerCache.PublishBatchProofs
import PeerCache.P2pDiskProofs
import PeerCache.StorageServerProofs
import PeerCache.StorageProtocolProofs
import PeerCache.StorageWriteProofs
import PeerCache.StorageBatchProofs
import PeerCache.ScatterProofs
import PeerCache.DirectoryClientProofs
import PeerCache.DirectoryHistoryProofs
import PeerCache.RepublishProofs
import PeerCache.DiskAccountsProofs
import PeerCache.OwnerStepsProofs
import PeerCache.PromoteStepsProofs
import PeerCache.P2pClusterProofs
import PeerCache.ClusterEntriesProofs
import PeerCache.NoDanglingProofs
import PeerCache.DiscoverableProofs
import PeerCache.HandOverProofs
import PeerCache.StorageEntriesProofs
import PeerCache.HybridProofs
import PeerCache.OwnEntriesProofs
import PeerCache.SortedMapProofs
import PeerCache.ChannelPoolProofs
import PeerCache.TransferEngineProofs
import PeerCache.CompletionProofs
import PeerCache.UsableChannelProofs
import PeerCache.ChannelDeadlockProofs
import PeerCache.ByteStreamProofs
import PeerCache.ExchangeProofs
import PeerCache.ExchangeInvariantProofs
import PeerCache.RpcProofs
import PeerCache.RpcFramingProofs
import PeerCache.JsonCodecProofs
import PeerCache.DiscoveryProofs
import PeerCache.TcpTransportProofs
import PeerCache.TcpServerProofs
import PeerCache.PageFileProofs
import PeerCache.DiskDirectoryProofs
import PeerCache.RecencyProofs
import PeerCache.DiskThreadsProofs
import PeerCache.DiskCapacityProofs
import PeerCache.DiskCrashProofs
import PeerCache.DiskReadableProofs
import PeerCache.DiskReopenProofs
import PeerCache.PoolRefusalProofs
import PeerCache.WayClaimsProofs
import PeerCache.SlotRunProofs
import PeerCache.SlotApartProofs
import PeerCache.SlotSequenceProofs
import PeerCache.HandledPagesProofs
import PeerCache.HandOutProofs
import PeerCache.BatchPlacesProofs
import PeerCache.StorageKeyProofs
import PeerCache.ProbeProofs
import PeerCache.ClearProofs
import PeerCache.KeyLengthsProofs
import PeerCache.ChooserAgreementProofs
import PeerCache.SlotForkProofs
import PeerCache.SlotReadersProofs
import PeerCache.SidecarProofs
import PeerCache.RestartProofs
import PeerCache.MemoryRegistryProofs
import PeerCache.ReadCacheProofs
import PeerCache.MultiBufferProofs
import PeerCache.PeerLayoutProofs
import PeerCache.RailProofs
