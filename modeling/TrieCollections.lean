import TrieCollections.Builder
import TrieCollections.ClusterKey
import TrieCollections.Json.KeyForm
import TrieCollections.Relation.Join
import TrieCollections.Value.Literal
import TrieCollections.Json.Reader
import TrieCollections.Json.Writer
import TrieCollections.Proofs.EditRuns
import TrieCollections.Proofs.CollectionLookups
import TrieCollections.Proofs.BuiltValues
import TrieCollections.Proofs.Walks
import TrieCollections.Proofs.Gathering
import TrieCollections.Proofs.TupleParts
import TrieCollections.Proofs.NaturalJoin
import TrieCollections.Proofs.Expansions
import TrieCollections.Proofs.NestedGroups
import TrieCollections.Proofs.UnnestOrder
import TrieCollections.Proofs.UnnestProducts
import TrieCollections.Proofs.Headers
import TrieCollections.Proofs.JsonRoundTrip
import TrieCollections.Proofs.JoinLaws
import TrieCollections.Proofs.ExactGroups
import TrieCollections.Proofs.Mixing
import TrieCollections.Proofs.SharedPaths
import TrieCollections.Proofs.SeededHashes
import TrieCollections.Proofs.GroupCounts
import TrieCollections.Proofs.InsertionRuns
import TrieCollections.Proofs.CursorCalls
import TrieCollections.Proofs.Restrictions
import TrieCollections.Proofs.Powersets
import TrieCollections.Proofs.Partitions
import TrieCollections.Proofs.SubsetOrder
import TrieCollections.Proofs.Rows
import TrieCollections.Proofs.JsonEntries
import TrieCollections.Proofs.SlotEdits
