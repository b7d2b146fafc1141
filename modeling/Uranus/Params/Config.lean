import Uranus.Utils.Types

/-!
# Chain configuration and protocol constants

{lit}`params.ChainConfig` holds the consensus parameters of the DPoS chain, and
{lit}`params/protocol.go` the gas prices of a transaction and the bounds of a header.  Only the fields that a
modelled function reads are here.  The genesis candidate, a hex string in Go, is
kept as the bytes {lit}`FromHex` gives for it.
-/

namespace Uranus
namespace Params

/-- {lit}`params.ChainConfig`; a nil {lit}`*big.Int` is {lean}`none`. -/
structure ChainConfig where
  minDelegateState : Option Int
  minDelegateDuration : Int
  blockInterval : Int
  blockRepeat : Int
  maxValidatorSize : Int
  genesisCandidate : Bytes
  maxVotes : Int
  delayDuration : Int

/-- {lit}`TxGas`: the gas of a transaction that does not create a contract. -/
def TxGas : UInt64 := 21000

/-- {lit}`TxGasContractCreation`. -/
def TxGasContractCreation : UInt64 := 53000

/-- {lit}`TxDataZeroGas`: the gas of a zero byte of payload. -/
def TxDataZeroGas : UInt64 := 4

/-- {lit}`TxDataNonZeroGas`: the gas of a byte of payload that is not zero. -/
def TxDataNonZeroGas : UInt64 := 68

/-- {lit}`MaxExtraDataSize`: the extra data a header may carry before the seal. -/
def MaxExtraDataSize : UInt64 := 32

/-- {lit}`GasLimitBoundDivisor`: a header's gas limit moves by less than its parent's
divided by this. -/
def GasLimitBoundDivisor : UInt64 := 1024

/-- {lit}`MinGasLimit`. -/
def MinGasLimit : UInt64 := 1000000

end Params
end Uranus
