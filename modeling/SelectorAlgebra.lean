import SelectorAlgebra.Main
import SelectorAlgebra.Store.Update
import SelectorAlgebra.Superselector.Unfold
import SelectorAlgebra.Proofs.Document
import SelectorAlgebra.Proofs.Containment
import SelectorAlgebra.Proofs.Cover
import SelectorAlgebra.Proofs.Walk
import SelectorAlgebra.Proofs.Soundness
import SelectorAlgebra.Proofs.PlainCompound
import SelectorAlgebra.Proofs.Sequences
import SelectorAlgebra.Proofs.Interleaving
import SelectorAlgebra.Proofs.Operation
import SelectorAlgebra.Proofs.Trimming
import SelectorAlgebra.Proofs.Retention
import SelectorAlgebra.Proofs.Authorship
import SelectorAlgebra.Proofs.Tables
import SelectorAlgebra.Proofs.LoneSelectors
import SelectorAlgebra.Proofs.LoneStore
import SelectorAlgebra.Proofs.LoneUpdate
import SelectorAlgebra.Proofs.ExtensionClosure
import SelectorAlgebra.Proofs.Changes
import SelectorAlgebra.Proofs.ExtenderIndex
import SelectorAlgebra.Proofs.Merging
import SelectorAlgebra.Proofs.ClassCompounds
import SelectorAlgebra.Proofs.ClassSubstitution
import SelectorAlgebra.Proofs.RowShapes
import SelectorAlgebra.Proofs.ValidWeaving
import SelectorAlgebra.Proofs.ValidExtension
import SelectorAlgebra.Proofs.Occurrence
import SelectorAlgebra.Proofs.SelectorIndex
import SelectorAlgebra.Proofs.Settling
import SelectorAlgebra.Proofs.Frame
import SelectorAlgebra.Proofs.Repetition
import SelectorAlgebra.Proofs.CanonicalForms
import SelectorAlgebra.Proofs.CanonicalCover
import SelectorAlgebra.Proofs.CanonicalWeaving
import SelectorAlgebra.Proofs.CanonicalExtension
import SelectorAlgebra.Proofs.MediaFree
import SelectorAlgebra.Proofs.Commutation
import SelectorAlgebra.Proofs.JoinedPairs
import SelectorAlgebra.Proofs.LongestSubsequence
import SelectorAlgebra.Proofs.ClassRows
import SelectorAlgebra.Proofs.UnificationOrder
import SelectorAlgebra.Proofs.TrimmedLists
import SelectorAlgebra.Proofs.WholeSelectors
import SelectorAlgebra.Proofs.StoredForms
import SelectorAlgebra.Proofs.JsonForms
import SelectorAlgebra.Proofs.JsonTexts
import SelectorAlgebra.Proofs.WrittenWords
import SelectorAlgebra.Proofs.UniqueText
import SelectorAlgebra.Proofs.WovenCompounds
import SelectorAlgebra.Proofs.ExtendedCompounds
import SelectorAlgebra.Proofs.SecretExtensions
import SelectorAlgebra.Proofs.RowPositions
import SelectorAlgebra.Proofs.WholeResults
import SelectorAlgebra.Proofs.KeptPromises
import SelectorAlgebra.Proofs.ReadSources
import SelectorAlgebra.Proofs.PrivateTargets
import SelectorAlgebra.Proofs.DescendantRows
import SelectorAlgebra.Proofs.Reflexivity
import SelectorAlgebra.Proofs.MisplacedRows
import SelectorAlgebra.Proofs.UnifiedConditions
import SelectorAlgebra.Proofs.TidyCompounds
import SelectorAlgebra.Proofs.HostCompounds
import SelectorAlgebra.Proofs.ExcludedBranches
import SelectorAlgebra.Proofs.RootedRows
import SelectorAlgebra.Proofs.DisplacedRoots
import SelectorAlgebra.Proofs.ValidUnification
import SelectorAlgebra.Proofs.OneShotTargets
import SelectorAlgebra.Proofs.ReplacedTargets
import SelectorAlgebra.Proofs.NestedOrder
import SelectorAlgebra.Proofs.ResolvedParents
import SelectorAlgebra.Proofs.RefusedParents
import SelectorAlgebra.Proofs.Polarity
import SelectorAlgebra.Proofs.ExactSpecificity
import SelectorAlgebra.Proofs.BogusLevels
import SelectorAlgebra.Proofs.ParentRows
import SelectorAlgebra.Proofs.WeavingDepth
