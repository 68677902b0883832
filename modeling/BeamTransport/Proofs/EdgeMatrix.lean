import BeamTransport.Proofs.KickSum
import BeamTransport.Proofs.ReferenceOrbit

/-!
# An edge kick is the thin matrix of the edge

Behind a kick a particle is still where it was, so its offsets from the orbit are those before the kick,
and the frame reads back the very slopes that the kick wrote (`DipoleFringe.slopes_kickBy`). They differ
from the slopes before the kick by the matrix of a thin edge: each by a multiple of its offset, with the
curvature of the path in the bending field, the tangent of the pole face and the share of the kick
(`DipoleFringe.kick_is_edge_matrix`).
-/

namespace BeamTransport.DipoleFringe

theorem kickFraction_eq (thin h : ℝ) :
    kickFraction thin h = if 0 < thin then min (h / thin) 1 else 1 := by
  split_ifs with hthin
  · exact kickFraction_eq_min hthin h
  · exact kickFraction_of_not_pos hthin h

/-- Behind a share of the kick, the slopes are those before it and the share of what a kick adds. -/
theorem slopes_kickBy {edge : DipoleFringe ℝ} {state : State ℝ} (hforward : edge.MovesForward state)
    (share : ℝ) :
    let before := edge.body.frame.ofLocal state
    let behind := edge.body.frame.ofLocal (edge.kickBy state share)
    behind.xp = before.xp + share * edge.kickX before.toOrbitPoint state.momentum.length ∧
      behind.yp = before.yp - share * edge.kickY before.toOrbitPoint state.momentum.length := by
  have hmoving : state.momentum.length ≠ 0 := (state.momentum.length_pos_iff.mpr hforward.1).ne'
  intro before behind
  have hbehind : behind = edge.coordsBehind state share := ofLocal_kickBy hforward share
  rw [hbehind, coordsBehind, kicked_eq]
  exact OrbitCoords.slopes_ofSlopes _ _ _ hmoving

/-- The kick of a step at the edge of any bend, wherever the particle is. At rest or moving backward along
the orbit it stays as it is. Moving forward it keeps its position and its magnitude of momentum, goes on
forward, and its slopes against the orbit change by the thin matrix of the edge. -/
theorem kick_is_edge_matrix (motion : Motion ℝ) (strengths : Strengths ℝ) (geometry : BendGeometry ℝ)
    (face : Face) (rigidity : ℝ) (context : Context ℝ) (y : State ℝ) (h : ℝ) :
    let out := (ofMagnet motion strengths geometry face rigidity context).kick y h
    let frame := OrbitFrame.ofCurvature geometry.curvature
    let before := frame.ofLocal y
    let behind := frame.ofLocal out
    let p := y.momentum.length
    let kappa := motion.coupling * geometry.field rigidity / p
    let e := geometry.poleFace face
    let psi := geometry.correction face
    let thin := context.thin.value
    let f := if 0 < thin then min (h / thin) 1 else 1
    (p = 0 ∨ before.ps ≤ 0 → out = y) ∧
      (p ≠ 0 → 0 < before.ps →
        out.position = y.position ∧ out.momentum.length = p ∧ 0 < behind.ps ∧
          behind.xp = before.xp + f * kappa * Real.tan e * before.x ∧
          behind.yp = before.yp - f * kappa * Real.tan (e - psi) * before.y) := by
  set edge := ofMagnet motion strengths geometry face rigidity context with hedge
  intro out frame before behind p kappa e psi thin f
  have hout : out = edge.kickBy y f := by
    have hshare : kickFraction edge.thin.value h = f := kickFraction_eq thin h
    rw [← hshare]
    exact edge.kick_eq_kickBy y h
  constructor
  · intro hstill
    rw [Vec3.length_eq_zero_iff] at hstill
    exact edge.kick_of_not_forward y h hstill
  · intro hmoving hps
    have hforward : edge.MovesForward y := ⟨(Vec3.length_eq_zero_iff _).not.mp hmoving, hps⟩
    obtain ⟨hxp, hyp⟩ := slopes_kickBy hforward f
    have hkickX : f * edge.kickX before.toOrbitPoint p = f * kappa * Real.tan e * before.x := by
      rw [kickX, ← mul_assoc, ← mul_assoc]
      rfl
    have hkickY : f * edge.kickY before.toOrbitPoint p = f * kappa * Real.tan (e - psi) * before.y := by
      rw [kickY, ← mul_assoc, ← mul_assoc]
      rfl
    rw [← hkickX, ← hkickY]
    subst behind
    rw [hout]
    exact ⟨edge.kickBy_position y f, length_kickBy hforward f, (movesForward_kickBy hforward f).2, hxp,
      hyp⟩

/-- Half a kick, one metre into a bend of negative curvature with a fringe field, of a particle off the
orbit on both axes; and no kick of the same particle moving backward. -/
theorem kick_is_edge_matrix_inside :
    let geometry : BendGeometry ℝ := ⟨2, -2, 1 / 4, 1 / 2, 1 / 2, 1 / 20⟩
    let context : Context ℝ := { Context.standard with thin := .fixed 2 }
    let edge : DipoleFringe ℝ := .ofMagnet ⟨-1⟩ .empty geometry .exit 3 context
    let frame := OrbitFrame.ofCurvature geometry.curvature
    let forward : OrbitCoords ℝ := { x := 1 / 2, y := -2, s := 1, px := 3, py := 1, ps := 4 }
    let y := frame.toLocal forward
    let back := frame.toLocal { forward with ps := -4 }
    let kappa := (⟨-1⟩ : Motion ℝ).coupling * geometry.field 3 / y.momentum.length
    let behind := frame.ofLocal (edge.kick y 1)
    (frame.ofLocal back).ps ≤ 0 ∧ edge.kick back 1 = back ∧
      y.momentum.length ≠ 0 ∧ 0 < (frame.ofLocal y).ps ∧
      behind.xp = 3 / 4 + 1 / 4 * kappa * Real.tan (1 / 2) ∧
      behind.yp = 1 / 4 + kappa * Real.tan (1 / 2 - geometry.correction .exit) := by
  intro geometry context edge frame forward y back kappa behind
  have hpi := Real.pi_gt_three
  have hcurvature : frame.curvature = -1 := by
    have hbent : geometry.isBent = true := BendGeometry.isBent_iff.mpr
      ⟨significant_of_one_le (by norm_num [geometry]), significant_of_one_le (by norm_num [geometry])⟩
    have hratio : geometry.angle / geometry.arcLength = -1 := by norm_num [geometry]
    exact (curvature_frame_ofMagnet hbent (hratio ▸ significant_of_one_le (by norm_num))).trans hratio
  have hside : 0 < 1 + frame.curvature * forward.x := by norm_num [hcurvature, forward]
  have hturn : frame.firstTurn forward.s = forward.s := by
    apply frame.firstTurn_of_mem
    · norm_num [hcurvature, forward]
      linarith
    · norm_num [hcurvature, forward]
      linarith
  have hforward : frame.ofLocal y = forward := by
    rw [frame.ofLocal_toLocal forward hside, hturn]
  have hback : (frame.ofLocal back).ps = -4 := by
    rw [frame.ofLocal_toLocal { forward with ps := -4 } hside]
  have hbackward : (frame.ofLocal back).ps ≤ 0 := by norm_num [hback]
  have hps : 0 < (frame.ofLocal y).ps := by norm_num [hforward, forward]
  have hmoving : y.momentum.length ≠ 0 := by
    rw [← frame.momentum_ofLocal]
    exact (OrbitCoords.momentum_pos_of_forward hps).ne'
  have hshare : (if 0 < context.thin.value then min (1 / context.thin.value) 1 else 1) = 1 / 2 := by
    norm_num [context]
  obtain ⟨-, hkicked⟩ := kick_is_edge_matrix ⟨-1⟩ .empty geometry .exit 3 context y 1
  obtain ⟨hstill, -⟩ := kick_is_edge_matrix ⟨-1⟩ .empty geometry .exit 3 context back 1
  obtain ⟨-, -, -, hxp, hyp⟩ := hkicked hmoving hps
  refine ⟨hbackward, hstill (Or.inr hbackward), hmoving, hps, hxp.trans ?_, hyp.trans ?_⟩
  · change (frame.ofLocal y).xp + _ * kappa * Real.tan (1 / 2) * (frame.ofLocal y).x = _
    rw [hshare, hforward, OrbitCoords.xp]
    ring
  · change (frame.ofLocal y).yp - _ * kappa * Real.tan (1 / 2 - _) * (frame.ofLocal y).y = _
    rw [hshare, hforward, OrbitCoords.yp]
    ring

end BeamTransport.DipoleFringe
