import BeamTransport.Main
import BeamTransport.Reference
import BeamTransport.Proofs.ReferenceOrbit
import BeamTransport.Proofs.Composition
import BeamTransport.Proofs.Reversal
import BeamTransport.Proofs.FollowedField
import BeamTransport.Proofs.Subdivision
import BeamTransport.Proofs.Resumption
import BeamTransport.Proofs.KickShare
import BeamTransport.Proofs.Acceptance
import BeamTransport.Proofs.OrbitAdvance
import BeamTransport.Proofs.EdgeMatrix
import BeamTransport.Proofs.Symmetry
import BeamTransport.Proofs.ReflectedIntegrator
import BeamTransport.Proofs.ReflectedMagnet
import BeamTransport.Proofs.MagnetSymmetry
import BeamTransport.Proofs.FieldEquations
import BeamTransport.Proofs.RungeKutta
import BeamTransport.Proofs.Drift
import BeamTransport.Proofs.Coordinates
import BeamTransport.Proofs.DesignParticle
import BeamTransport.Proofs.ThinLength
import BeamTransport.Proofs.StrengthRecord
import BeamTransport.Proofs.LinearMotion
import BeamTransport.Proofs.Consistency
import BeamTransport.Proofs.Refusal
import BeamTransport.Proofs.LargestError
import BeamTransport.Proofs.ZeroDivisor
import BeamTransport.Proofs.StrengthOptions
import BeamTransport.Proofs.TrackFaults
import BeamTransport.Proofs.Names
import BeamTransport.Proofs.FocusingSeries
import BeamTransport.Proofs.NestedSkew
