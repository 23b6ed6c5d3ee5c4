import FieldLisp.Circuit.Entry
import FieldLisp.Circuit.Trial
import FieldLisp.Datum
import FieldLisp.Field.Checked
import FieldLisp.Machine.Phase
import FieldLisp.Machine.Trial
import FieldLisp.Reader
import FieldLisp.Trace.Receipt
import FieldLisp.Proofs.Circuit.Completeness
import FieldLisp.Proofs.Circuit.Consistency
import FieldLisp.Proofs.Circuit.Division
import FieldLisp.Proofs.Circuit.Forcing
import FieldLisp.Proofs.Circuit.Hashing
import FieldLisp.Proofs.Circuit.Layout
import FieldLisp.Proofs.Circuit.Shapes
import FieldLisp.Proofs.Circuit.Soundness
import FieldLisp.Proofs.Domains
import FieldLisp.Proofs.Machine.Adequacy
import FieldLisp.Proofs.Machine.Budgets
import FieldLisp.Proofs.Machine.Depth
import FieldLisp.Proofs.Machine.Malformed
import FieldLisp.Proofs.Machine.Programs
import FieldLisp.Proofs.Orders
import FieldLisp.Proofs.Permutation.Bijection
import FieldLisp.Proofs.Store.Concatenation
import FieldLisp.Proofs.Store.Interning
import FieldLisp.Proofs.Store.RoundTrip
import FieldLisp.Proofs.Threads
import FieldLisp.Proofs.Tokens
import FieldLisp.Proofs.Trace.Chains
import FieldLisp.Proofs.Trace.Folding
import FieldLisp.Proofs.Trace.Pipeline
import FieldLisp.Proofs.Trace.Refusal
