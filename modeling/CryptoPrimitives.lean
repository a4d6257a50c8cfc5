import CryptoPrimitives.Framework.Except
import CryptoPrimitives.Rust.Outcome
import CryptoPrimitives.Rust.Collections
import CryptoPrimitives.Framework.HashTree
import CryptoPrimitives.Framework.RootBinding
import CryptoPrimitives.MerkleTree.Index
import CryptoPrimitives.MerkleTree.Tree
import CryptoPrimitives.MerkleTree.Build
import CryptoPrimitives.MerkleTree.FreeHash
import CryptoPrimitives.MerkleTree.Update
import CryptoPrimitives.MerkleTree.Path
import CryptoPrimitives.MerkleTree.ProofBinding
import CryptoPrimitives.MerkleTree.Filling
import CryptoPrimitives.MerkleTree.CoPath
import CryptoPrimitives.MerkleTree.CoPathLevels
import CryptoPrimitives.MerkleTree.BatchProof
import CryptoPrimitives.MerkleTree.BatchOfPaths
import CryptoPrimitives.MerkleTree.SinglePath
import CryptoPrimitives.MerkleTree.VerifyReturns
import CryptoPrimitives.MerkleTree.CoPathPartition
import CryptoPrimitives.MerkleTree.MultiProofRange
import CryptoPrimitives.MerkleTree.CanonicalProof
import CryptoPrimitives.Framework.Synthesis
import CryptoPrimitives.Gadget.Boolean
import CryptoPrimitives.MerkleTree.Constraints
import CryptoPrimitives.MerkleTree.LeafPosition
import CryptoPrimitives.MerkleTree.UpdateRuns
import CryptoPrimitives.Framework.Duplex
import CryptoPrimitives.Sponge.Duplex
import CryptoPrimitives.Sponge.Poseidon
import CryptoPrimitives.Sponge.Reference
import CryptoPrimitives.Sponge.PoseidonParameters
import CryptoPrimitives.Sponge.Rescue
import CryptoPrimitives.Sponge.RescueRuns
import CryptoPrimitives.Sponge.RescueSplit
import CryptoPrimitives.Framework.Digits
import CryptoPrimitives.Framework.LinearRecurrence
import CryptoPrimitives.Framework.Cauchy
import CryptoPrimitives.Sponge.GrainLfsr
import CryptoPrimitives.Rust.PrimeField
import CryptoPrimitives.Gadget.Field
import CryptoPrimitives.Sponge.FieldElements
import CryptoPrimitives.Sponge.Constraints
import CryptoPrimitives.Sponge.Emulated
import CryptoPrimitives.Sponge.SizedSqueeze
import CryptoPrimitives.Framework.BlockStream
import CryptoPrimitives.Rust.Uint
import CryptoPrimitives.Gadget.Uint
import CryptoPrimitives.Crh.Sha256
import CryptoPrimitives.Crh.Sha256Gadget
import CryptoPrimitives.Crh.PedersenGadget
import CryptoPrimitives.MerkleTree.Sha256
import CryptoPrimitives.Gadget.Instance
import CryptoPrimitives.Snark.Repack
import CryptoPrimitives.Snark.BooleanInput
import CryptoPrimitives.Snark.EmulatedInput
import CryptoPrimitives.Framework.DoubleAndAdd
import CryptoPrimitives.Framework.SignedDigits
import CryptoPrimitives.Signature.Schnorr
import CryptoPrimitives.Signature.SchnorrGadget
import CryptoPrimitives.Framework.PrefixCode
import CryptoPrimitives.Sponge.Absorb
import CryptoPrimitives.Sponge.AbsorbGadget
import CryptoPrimitives.Framework.Appends
import CryptoPrimitives.Sponge.AbsorbTypes
import CryptoPrimitives.Sponge.AbsorbNested
import CryptoPrimitives.Sponge.AbsorbSigned
import CryptoPrimitives.Sponge.PoseidonRuns
import CryptoPrimitives.Crh.Pedersen
import CryptoPrimitives.Crh.BoweHopwood
import CryptoPrimitives.Framework.TwistedEdwards
import CryptoPrimitives.Crh.InjectiveMap
import CryptoPrimitives.Commitment.Pedersen
import CryptoPrimitives.Commitment.PedersenGadget
import CryptoPrimitives.Prf.Blake2s
import CryptoPrimitives.Prf.Blake2sGadget
import CryptoPrimitives.Framework.Circuit
import CryptoPrimitives.Gadget.Circuit
import CryptoPrimitives.Gadget.BooleanVar
import CryptoPrimitives.Gadget.CircuitInputs
import CryptoPrimitives.Sponge.EmulatedConstraints
import CryptoPrimitives.Snark.EmulatedConstraints
import CryptoPrimitives.Sponge.RescueConstraints
import CryptoPrimitives.Sponge.Permutation
import CryptoPrimitives.Sponge.Termination
import CryptoPrimitives.Crh.SpongeHash
import CryptoPrimitives.MerkleTree.FieldTree
import CryptoPrimitives.Framework.GroupScalars
import CryptoPrimitives.Encryption.Elgamal
import CryptoPrimitives.Encryption.ElgamalGadget
import CryptoPrimitives.Framework.Combination
import CryptoPrimitives.Crh.PedersenBinding
import CryptoPrimitives.Commitment.PedersenBinding
import CryptoPrimitives.Crh.BoweHopwoodBinding
import CryptoPrimitives.Signature.SchnorrSigning
import CryptoPrimitives.Framework.Codes
import CryptoPrimitives.Sponge.AbsorbCoding
import CryptoPrimitives.Sponge.AbsorbInjective
import CryptoPrimitives.Sponge.DeriveAbsorb
import CryptoPrimitives.Crh.Compress
import CryptoPrimitives.Framework.Chain
import CryptoPrimitives.Sponge.Blocks
import CryptoPrimitives.Sponge.TranscriptBinding
import CryptoPrimitives.Crh.SpongeCollision
import CryptoPrimitives.Commitment.InjectiveMap
import CryptoPrimitives.MerkleTree.FieldBinding
import CryptoPrimitives.Sponge.AbsorbBytes
import CryptoPrimitives.Framework.CircuitRun
import CryptoPrimitives.Gadget.ByteVar
import CryptoPrimitives.Sponge.RescueCalls
import CryptoPrimitives.Sponge.RescueEmulated
