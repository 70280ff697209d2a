/- GID: Types
   anchors: [src/bitxorcore/types.h, src/bitxorcore/model, src/bitxorcore/crypto_voting]
   digest: Hashes, keys and addresses, and what several components share of the model types. -/

import BitxorCore.Library.Bytes
import Mathlib.Data.BitVec
import Mathlib.Data.Prod.Lex

set_option autoImplicit false
set_option relaxedAutoImplicit false

namespace BitxorCore

/-- Byte arrays are compared from the first byte on, which is the highest here. -/
abbrev Hash256 := BitVec 256

abbrev Key := BitVec 256

abbrev Address := BitVec 192

/-- The first bytes of the hash, read as a number. -/
def toShortHash (hash : Hash256) : BitVec 32 :=
  Library.Bytes.ofWord 4 ((Library.Bytes.array 32 hash).take 4)

namespace Crypto

structure ParentPublicKeySignaturePair (PublicKey Signature : Type) where
  parentPublicKey : PublicKey
  signature : Signature
  deriving DecidableEq, Repr

structure BmTreeSignature (PublicKey Signature : Type) where
  root : ParentPublicKeySignaturePair PublicKey Signature
  bottom : ParentPublicKeySignaturePair PublicKey Signature
  deriving DecidableEq, Repr

end Crypto

namespace Model

structure HeightHashPair where
  height : ℕ
  hash : Hash256
  deriving DecidableEq, Repr

namespace HeightHashPair

private def toLexPair (pair : HeightHashPair) : ℕ ×ₗ ℕ := toLex (pair.height, pair.hash.toNat)

private theorem toLexPair_injective : Function.Injective toLexPair := by
  rintro ⟨height, hash⟩ ⟨height', hash'⟩ same
  have parts := Prod.mk.inj (toLex.injective same)
  simpa [BitVec.toNat_inj] using parts

instance : LinearOrder HeightHashPair := LinearOrder.lift' toLexPair toLexPair_injective

variable {lhs rhs : HeightHashPair}

private theorem lt_iff :
    lhs < rhs ↔ lhs.height < rhs.height ∨ lhs.height = rhs.height ∧ lhs.hash < rhs.hash :=
  Prod.Lex.toLex_lt_toLex

theorem height_le_of_le (le : lhs ≤ rhs) : lhs.height ≤ rhs.height := by
  by_contra above
  exact absurd (lt_iff.mpr (.inl (Nat.lt_of_not_le above))) (not_lt.mpr le)

theorem lt_of_height_lt (below : lhs.height < rhs.height) : lhs < rhs :=
  lt_iff.mpr (.inl below)

end HeightHashPair

end Model

end BitxorCore
