import MutationPreview.Main
import MutationPreview.Proofs.Clause.Covered
import MutationPreview.Proofs.Clause.Nested
import MutationPreview.Proofs.Mutation.PlainPreview
import MutationPreview.Proofs.Mutation.Shown
import MutationPreview.Proofs.Subquery.Outermost
import MutationPreview.Proofs.Wire.RoundTrip
import MutationPreview.Proofs.Held.InTurn
import MutationPreview.Proofs.Held.Table
import MutationPreview.Proofs.Mutation.Assigned
import MutationPreview.Proofs.Mutation.PlainUpdate
import MutationPreview.Proofs.Held.Shielded
import MutationPreview.Proofs.Tidy.Stable
import MutationPreview.Proofs.Tidy.Tokens
import MutationPreview.Proofs.Batch.Annotated
import MutationPreview.Proofs.Batch.Exhausted
import MutationPreview.Proofs.Ledger.Safe
import MutationPreview.Proofs.Ledger.Fresh
import MutationPreview.Proofs.Mutation.OwnParameters
import MutationPreview.Proofs.Message.Slots
