import ComboTree.Host.Disk
import ComboTree.Main
import ComboTree.Proofs.Lists
import ComboTree.Proofs.Pieces
import ComboTree.Proofs.Subsets
import ComboTree.Proofs.Discovery
import ComboTree.Proofs.PowerSet
import ComboTree.Proofs.Notation
import ComboTree.Proofs.Language
import ComboTree.Proofs.Expansion
import ComboTree.Proofs.Links
import ComboTree.Proofs.Growth
import ComboTree.Proofs.Reachable
import ComboTree.Proofs.Rose
import ComboTree.Proofs.Shape
import ComboTree.Proofs.Product
import ComboTree.Proofs.Labels
import ComboTree.Proofs.Members
import ComboTree.Proofs.RoundTrip
import ComboTree.Proofs.Ways
import ComboTree.Proofs.Insertion
import ComboTree.Proofs.Lookup
import ComboTree.Proofs.LastLevel
import ComboTree.Proofs.Depths
import ComboTree.Proofs.CollapseInsert
import ComboTree.Proofs.BreadthFirst
import ComboTree.Proofs.Synonym
import ComboTree.Proofs.NodeCount
import ComboTree.Proofs.InPlace
import ComboTree.Proofs.Readback
import ComboTree.Proofs.AppendOnly
import ComboTree.Proofs.Serialize
import ComboTree.Proofs.Lineage
import ComboTree.Proofs.NormalForm
import ComboTree.Proofs.Twins
import ComboTree.Proofs.Validation
import ComboTree.Proofs.Layers
import ComboTree.Proofs.Readers
import ComboTree.Proofs.Counts
import ComboTree.Proofs.Runs
import ComboTree.Proofs.SettingsText
import ComboTree.Proofs.NodeLimit
import ComboTree.Proofs.PathInverse
import ComboTree.Proofs.InsertWalk
import ComboTree.Proofs.Traversals
import ComboTree.Proofs.Renumbering
import ComboTree.Proofs.SameShape
import ComboTree.Proofs.Drawing
import ComboTree.Proofs.Commuting
import ComboTree.Proofs.MutualSynonyms
import ComboTree.Proofs.LevelLists
import ComboTree.Proofs.Peers
import ComboTree.Proofs.Ancestry
