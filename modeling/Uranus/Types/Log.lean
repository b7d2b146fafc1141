import Uranus.Utils.Types

/-!
# Logs

{lit}`types.Log`, the event a contract emits.  The consensus fields are what the
contract supplies; the derived fields are filled in by {lit}`StateDB.AddLog` from
the transaction being executed.  The {lit}`Removed` flag is only set by chain
reorganisation notices, which this development does not model.
-/

namespace Uranus
namespace Types

/-- {lit}`types.Log`. -/
structure Log where
  address : Address
  topics : List Hash
  data : Bytes
  blockHeight : UInt64
  blockHash : Hash
  transactionHash : Hash
  transactionIndex : Nat
  logIndex : Nat
deriving DecidableEq

end Types
end Uranus
