import SigmaProofs.Channel.Memory
import SigmaProofs.Channel.Stream
import SigmaProofs.Config
import SigmaProofs.DamgardJurik.Format
import SigmaProofs.DebugText
import SigmaProofs.ElGamal
import SigmaProofs.FiatShamir
import SigmaProofs.Group.Ristretto
import SigmaProofs.Group.Secp256k1
import SigmaProofs.Interactive.ProverSession
import SigmaProofs.Interactive.VerifierSession
import SigmaProofs.Pedersen
import SigmaProofs.Proofs.AdaptedSoundness
import SigmaProofs.Proofs.Base64Url
import SigmaProofs.Proofs.ByteStream
import SigmaProofs.Proofs.ChallengeOps
import SigmaProofs.Proofs.ChallengeOps.Prover
import SigmaProofs.Proofs.ChallengeOps.Verifier
import SigmaProofs.Proofs.Channel.Stream
import SigmaProofs.Proofs.CommonSoundness
import SigmaProofs.Proofs.Completeness
import SigmaProofs.Proofs.Construction
import SigmaProofs.Proofs.DamgardJurik.Binding
import SigmaProofs.Proofs.DamgardJurik.Checked
import SigmaProofs.Proofs.DamgardJurik.Formats
import SigmaProofs.Proofs.DebugText
import SigmaProofs.Proofs.FiatShamir.Binding
import SigmaProofs.Proofs.FiatShamir.Chain
import SigmaProofs.Proofs.FiatShamir.Decodings
import SigmaProofs.Proofs.FiatShamir.Formats
import SigmaProofs.Proofs.Group.Cyclic
import SigmaProofs.Proofs.Indistinguishability
import SigmaProofs.Proofs.Interactive.ProverHistory
import SigmaProofs.Proofs.Interactive.Rounds
import SigmaProofs.Proofs.Interactive.VerifierHistory
import SigmaProofs.Proofs.Json.Containers
import SigmaProofs.Proofs.Json.Room
import SigmaProofs.Proofs.Leaf.Agreement
import SigmaProofs.Proofs.Message.Json
import SigmaProofs.Proofs.Message.PrefixFree
import SigmaProofs.Proofs.PerfectSimulation
import SigmaProofs.Proofs.ProbablePrime
import SigmaProofs.Proofs.SoundnessError
import SigmaProofs.Proofs.SpecialSoundness
import SigmaProofs.Proofs.TrueInputs
import SigmaProofs.Proofs.Verdict.Forms
import SigmaProofs.Proofs.Verdict.Tampering
import SigmaProofs.Proofs.Verifier.Challenges
import SigmaProofs.Sampling.SplitMix
import SigmaProofs.Secret
