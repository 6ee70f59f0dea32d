import Coinyecoin.Consensus.Params
import Mathlib.Algebra.Ring.Int.Defs

/-!
# Block headers without auxpow

`CPureBlockHeader` with the readings of its version field. The base version
occupies the low byte, the auxpow flag is the next bit, and the chain ID sits
above bit 16.
-/

namespace Coinyecoin

structure CPureBlockHeader where
  nVersion : Int32
  hashPrevBlock : uint256
  hashMerkleRoot : uint256
  nTime : UInt32
  nBits : UInt32
  nNonce : UInt32
deriving DecidableEq, Repr

namespace CPureBlockHeader

def getBlockTime (header : CPureBlockHeader) : ℤ := header.nTime.toNat

/-- `nVersion >> 16`, an arithmetic shift. -/
def getChainId (header : CPureBlockHeader) : ℤ := header.nVersion.toInt / 2 ^ 16

def VERSION_AUXPOW : Int32 := (1 : Int32) <<< 8

def isAuxpow (header : CPureBlockHeader) : Bool := header.nVersion &&& VERSION_AUXPOW != 0

def isLegacy (header : CPureBlockHeader) : Bool :=
  header.nVersion == 1 || (header.nVersion == 2 && header.getChainId == 0)

end CPureBlockHeader

end Coinyecoin
