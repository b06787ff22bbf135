import MemoryFirst.Store.SegmentRuns
import MemoryFirst.Store.SegmentDamage
import MemoryFirst.Store.FaultRuns
import MemoryFirst.Core.WalProtocol
import MemoryFirst.Core.InlineRuns
import MemoryFirst.Core.InlineReads
import MemoryFirst.Core.InlineInserts
import MemoryFirst.Store.UniqueRuns
import MemoryFirst.Core.WriteBehindQueues
import MemoryFirst.Core.WriteBehindOrder
import MemoryFirst.Core.StoreFlushers
import MemoryFirst.Core.StoreVersions
import MemoryFirst.Store.ReferenceRuns
import MemoryFirst.Store.DocumentRuns
import MemoryFirst.Core.S3FifoRuns
import MemoryFirst.Compat.ObjectCrossings
import MemoryFirst.Compat.WorkerRuns
import MemoryFirst.Compat.SchemaConstraints
import MemoryFirst.Compat.SchemaReferences
import MemoryFirst.Compat.ObjectAgreement
import MemoryFirst.Lib.Register
import MemoryFirst.Compat.SchemaFlush
import MemoryFirst.Compat.SchemaFlushRuns
import MemoryFirst.Neural.QueuedWrites
import MemoryFirst.Core.SlotReads
import MemoryFirst.Core.SlotCache
import MemoryFirst.Neural.HandleIndex
import MemoryFirst.Compat.PageLocks
