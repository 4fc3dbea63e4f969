import RustHadoop.Chunk.Healing
import RustHadoop.Chunk.Pipeline
import RustHadoop.Client.Reads
import RustHadoop.Common.HashRing
import RustHadoop.Meta.Collection
import RustHadoop.Meta.Resharding
import RustHadoop.Meta.Routing
import RustHadoop.Meta.Success
import RustHadoop.Meta.Transparency
import RustHadoop.Raft.Membership
import RustHadoop.Raft.Peers
import RustHadoop.Raft.Snapshot
import RustHadoop.S3.Deletion
import RustHadoop.S3.Pages
import RustHadoop.S3.Failures
import RustHadoop.S3.PolicyFiles
import RustHadoop.S3.Decisions
import RustHadoop.S3.Wildcards
import RustHadoop.S3.Chunks
import RustHadoop.S3.UnreadBodies
import RustHadoop.S3.Completion
import RustHadoop.S3.Tampering
import RustHadoop.Raft.Reconfiguration
import RustHadoop.Raft.LocalState
import RustHadoop.Meta.Placement
import RustHadoop.Meta.Scheduling
import RustHadoop.Raft.FailedBatch
import RustHadoop.S3.ReplayWindow
import RustHadoop.S3.AuditIndex
import RustHadoop.S3.BatchDeletion
import RustHadoop.S3.Envelope
import RustHadoop.Client.Checker
