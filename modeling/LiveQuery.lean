import LiveQuery.Json.Text
import LiveQuery.Schema.Resolver
import LiveQuery.Wire.Schema
import LiveQuery.Wire.Batch
import LiveQuery.Tree.Outline
import LiveQuery.Server.Command
import LiveQuery.Proofs.RefusedAdditions
import LiveQuery.Proofs.ReferenceCounts
import LiveQuery.Proofs.TreeStructure
import LiveQuery.Proofs.MirroredChildren
import LiveQuery.Proofs.Typing
import LiveQuery.Proofs.SingleCalls
import LiveQuery.Proofs.LostChanges
import LiveQuery.Proofs.HubLives
import LiveQuery.Proofs.Flattening
import LiveQuery.Proofs.SplitBatches
import LiveQuery.Proofs.Collection
import LiveQuery.Proofs.Separation
import LiveQuery.Proofs.Deletions
import LiveQuery.Proofs.Locality
import LiveQuery.Proofs.Commuting
import LiveQuery.Proofs.Followers
import LiveQuery.Proofs.Dismissals
import LiveQuery.Proofs.Arrivals
import LiveQuery.Proofs.Following
import LiveQuery.Proofs.Retransmission
import LiveQuery.Proofs.HeldValues
import LiveQuery.Proofs.Bounds
import LiveQuery.Proofs.RelaxedSettings
import LiveQuery.Proofs.BatchFormat
import LiveQuery.Proofs.SchemaFormat
import LiveQuery.Proofs.Verdicts
import LiveQuery.Proofs.Disposal
import LiveQuery.Proofs.Clearances
import LiveQuery.Proofs.Reversals
import LiveQuery.Proofs.Subscriptions
import LiveQuery.Proofs.FieldTypes
import LiveQuery.Proofs.Registration
import LiveQuery.Proofs.Outlines
import LiveQuery.Proofs.Legibility
import LiveQuery.Proofs.Lookups
import LiveQuery.Proofs.WalkLengths
import LiveQuery.Proofs.TypeTexts
