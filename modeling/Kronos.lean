import Kronos.Config.Written
import Kronos.Wal.Durability
import Kronos.Wal.Corruption
import Kronos.Wal.Lifecycle
import Kronos.Sstable.Corruption
import Kronos.Sstable.Stepping
import Kronos.Sstable.Tiling
import Kronos.Lsm.Histories
import Kronos.Lsm.Merging
import Kronos.Manifest.Grammar
import Kronos.Engine.Guards
import Kronos.Engine.Layers
import Kronos.Engine.Configured
import Kronos.Engine.Metrics
import Kronos.Engine.FlushQueue
import Kronos.Engine.Closing
import Kronos.Engine.Sessions
import Kronos.Engine.ManifestFile
import Kronos.Engine.StoredTables
import Kronos.Engine.DurableDictionary
import Kronos.ThreadSafeQueue.Settling
