import BeamTransport.Proofs.Vec3
import BeamTransport.State

/-!
# Derivatives of paths

A path of vectors or of states has a derivative when each of its components has. The rules are those
that a path built from fixed vectors with varying factors needs.
-/

namespace BeamTransport

/-- A path of vectors passes `h` at a rate: each component has that derivative there. -/
structure Vec3.HasDeriv (path : ℝ → Vec3 ℝ) (rate : Vec3 ℝ) (h : ℝ) : Prop where
  x : HasDerivAt (fun t => (path t).x) rate.x h
  y : HasDerivAt (fun t => (path t).y) rate.y h
  z : HasDerivAt (fun t => (path t).z) rate.z h

/-- A path of states passes `h` at a rate: all six components have that derivative there. -/
structure State.HasDeriv (path : ℝ → State ℝ) (rate : State ℝ) (h : ℝ) : Prop where
  position : Vec3.HasDeriv (fun t => (path t).position) rate.position h
  momentum : Vec3.HasDeriv (fun t => (path t).momentum) rate.momentum h

namespace Vec3

variable {p q : ℝ → Vec3 ℝ} {p' q' : Vec3 ℝ} {f : ℝ → ℝ} {f' h : ℝ}

theorem hasDeriv_const (a : Vec3 ℝ) (h : ℝ) : HasDeriv (fun _ => a) 0 h :=
  ⟨hasDerivAt_const h a.x, hasDerivAt_const h a.y, hasDerivAt_const h a.z⟩

theorem hasDeriv_smul (hf : HasDerivAt f f' h) (a : Vec3 ℝ) :
    HasDeriv (fun t => f t • a) (f' • a) h :=
  ⟨hf.mul_const a.x, hf.mul_const a.y, hf.mul_const a.z⟩

namespace HasDeriv

theorem add (hp : HasDeriv p p' h) (hq : HasDeriv q q' h) :
    HasDeriv (fun t => p t + q t) (p' + q') h :=
  ⟨hp.x.add hq.x, hp.y.add hq.y, hp.z.add hq.z⟩

theorem const_smul (k : ℝ) (hp : HasDeriv p p' h) : HasDeriv (fun t => k • p t) (k • p') h :=
  ⟨hp.x.const_mul k, hp.y.const_mul k, hp.z.const_mul k⟩

theorem congr_rate (hp : HasDeriv p p' h) (hrate : p' = q') : HasDeriv p q' h := hrate ▸ hp

end HasDeriv

end Vec3

end BeamTransport
