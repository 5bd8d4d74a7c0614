import LlmCache.Lib.Machine
import LlmCache.Lib.OrderedDict
import LlmCache.Lib.KeyedStore
import LlmCache.Lib.Simulation
import LlmCache.Lib.Sharing
import LlmCache.Lib.LittleEndian
import LlmCache.Lib.Interleaving
import LlmCache.Lib.Strings
import LlmCache.Lib.Urls
import LlmCache.Lib.Base64
import LlmCache.Lib.Paths
import LlmCache.Lib.FileSystem
import LlmCache.Lib.Tensor
import LlmCache.Lib.Collect
import LlmCache.Lib.Lists
import LlmCache.Lib.Recency
import LlmCache.Errors
import LlmCache.Payload
import LlmCache.Payload.Framing
import LlmCache.Types
import LlmCache.Store.Base
import LlmCache.Store.CPU
import LlmCache.Store.CPUInvariants
import LlmCache.Store.Eviction
import LlmCache.Store.Capacity
import LlmCache.Store.Redis
import LlmCache.Store.Tiered
import LlmCache.Store.TieredRefinement
import LlmCache.Store.TieredInterleaving
import LlmCache.Store.TieredRedis
import LlmCache.Store.TieredReads
import LlmCache.Store.TieredSimulation
import LlmCache.Store.RedisKeys
import LlmCache.Store.RedisIsolation
import LlmCache.Store.Disk
import LlmCache.Store.DiskIsolation
import LlmCache.Store.DiskChunks
import LlmCache.Store.DiskRestarts
import LlmCache.Store.DiskInterleaving
import LlmCache.Store.Interchange
import LlmCache.Store.ColdTiers
import LlmCache.Store.Stats
import LlmCache.Store.TieredRestarts
import LlmCache.Engine
import LlmCache.Engine.Descriptors
import LlmCache.Engine.Liveness
import LlmCache.Engine.Prefix
import LlmCache.Engine.Matching
import LlmCache.Engine.Chunks
import LlmCache.Engine.Provenance
import LlmCache.Engine.Pinning
import LlmCache.Engine.Interleaving
import LlmCache.Engine.Solo
import LlmCache.Engine.Effects
import LlmCache.Engine.Expiry
import LlmCache.Engine.RegisterDelete
import LlmCache.Engine.Reading
import LlmCache.Engine.Unbounded
import LlmCache.Engine.Completeness
import LlmCache.Engine.PinFlags
import LlmCache.Engine.Lifetimes
import LlmCache.Engine.Isolation
import LlmCache.Engine.Batches
import LlmCache.Engine.Registering
import LlmCache.Engine.Simulation
import LlmCache.Engine.Spared
import LlmCache.Engine.Restarts
import LlmCache.Engine.Fleet
import LlmCache.Engine.Catalogue
import LlmCache.Engine.CatalogueRefinement
import LlmCache.Connectors.Transfer
import LlmCache.Connectors.Vllm
import LlmCache.Connectors.Chunking
import LlmCache.Connectors.Runs
import LlmCache.Connectors.Placement
import LlmCache.Connectors.Honoured
import LlmCache.Connectors.Sglang
import LlmCache.Connectors.Simulation
import LlmCache.Connectors.RoundTrip
import LlmCache.Connectors.Batch
import LlmCache.Connectors.TorchTransfer
import LlmCache.Connectors.Lifetime
import LlmCache.Control.Server
import LlmCache.Control.Calls
import LlmCache.Control.Client
import LlmCache.Control.Routing
import LlmCache.Control.Addressing
import LlmCache.Control.Posts
import LlmCache.Control.Serve
import LlmCache.Connectors.Served
import LlmCache.Control.Restarts
import LlmCache.Control.Service
import LlmCache.Control.RegisterFile
