import Patricia.Forest
import Patricia.Node.Checked
import Patricia.Proofs.Content
import Patricia.Proofs.Update.Standing
import Patricia.Sample
import Patricia.Settings.Json
import Patricia.Store.Probed
import Patricia.Text.Outline
import Patricia.Proofs.Node.Whole
import Patricia.Proofs.Update.Content
import Patricia.Proofs.Ledger
import Patricia.Proofs.Trie.Access
import Patricia.Proofs.Trie.InMemory
import Patricia.Proofs.Canonical.Table
import Patricia.Proofs.Canonical.Tree
import Patricia.Proofs.Canonical.Composition
import Patricia.Proofs.Trie.Canonical
import Patricia.Proofs.Format.Legible
import Patricia.Proofs.Store.Held
import Patricia.Proofs.Loader.Serving
import Patricia.Proofs.Trie.Gather
import Patricia.Proofs.Store.Memory
import Patricia.Proofs.Trie.Backed
import Patricia.Proofs.Trie.Committed
import Patricia.Proofs.Trie.Fleet
import Patricia.Proofs.Format.Decoded
import Patricia.Proofs.Walk.Outcome
import Patricia.Proofs.Trie.Durable
import Patricia.Proofs.Store.Addressed
import Patricia.Proofs.Trie.Commitment
import Patricia.Proofs.Format.Reading
import Patricia.Proofs.Format.Readable
import Patricia.Proofs.Trie.Readable
import Patricia.Proofs.Guarded.Commit
import Patricia.Proofs.Store.Vouched
import Patricia.Proofs.Trie.Authentic
import Patricia.Proofs.Trie.Safe
import Patricia.Proofs.Loader.SingleFlight
import Patricia.Proofs.Loader.Rounds
import Patricia.Proofs.Trie.Recovery
import Patricia.Proofs.Trie.Versions
import Patricia.Proofs.Trie.Interrupted
import Patricia.Proofs.Loader.Resident
import Patricia.Proofs.Format.Roundtrip
import Patricia.Proofs.Trie.Coherent
import Patricia.Proofs.Trie.Shape
import Patricia.Proofs.Format.Packing
import Patricia.Proofs.Format.Grammar
import Patricia.Proofs.Format.Snug
import Patricia.Proofs.Format.Compact
import Patricia.Proofs.Loader.Accounting
import Patricia.Proofs.Trie.Bounded
import Patricia.Proofs.Trie.FirstCommit
import Patricia.Proofs.Trie.Identity
import Patricia.Proofs.Trie.Sharing
import Patricia.Proofs.Loader.Calendar
import Patricia.Proofs.Trie.Cut
import Patricia.Proofs.Slots.Writes
import Patricia.Proofs.Update.Moved
import Patricia.Proofs.Trie.Warm
