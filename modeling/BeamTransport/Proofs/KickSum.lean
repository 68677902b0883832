import BeamTransport.Proofs.KickShare
import BeamTransport.Proofs.Momentum
import BeamTransport.Proofs.Paraxial

/-!
# Kicks at one position add up

A kick keeps the position and the magnitude of the momentum. So the next one meets the same offsets and
the same curvature, reads back the slopes that the first one left, and adds its own share to them
(`DipoleFringe.kickBy_kickBy`). Steps no longer than the thin length give shares in proportion, hence the
kicks of any parts of a step make up its kick, and a step back takes its kick back
(`DipoleFringe.kicks_add_up`).
-/

namespace BeamTransport

namespace OrbitCoords

variable (point : OrbitPoint ℝ) (xp yp : ℝ) {p : ℝ} (hp : p ≠ 0)

include hp in
theorem ofSlopes_ps_ne_zero : (ofSlopes point xp yp p).ps ≠ 0 :=
  div_ne_zero hp (sqrt_slopes_pos xp yp).ne'

include hp in
/-- Slopes are read back from the coordinates that they give. -/
theorem slopes_ofSlopes : (ofSlopes point xp yp p).xp = xp ∧ (ofSlopes point xp yp p).yp = yp :=
  ⟨mul_div_cancel_right₀ xp (ofSlopes_ps_ne_zero point xp yp hp),
    mul_div_cancel_right₀ yp (ofSlopes_ps_ne_zero point xp yp hp)⟩

section forward

variable {c : OrbitCoords ℝ} (hforward : 0 < c.ps)

include hforward

theorem xp_mul_ps : c.xp * c.ps = c.px := div_mul_cancel₀ _ hforward.ne'

theorem yp_mul_ps : c.yp * c.ps = c.py := div_mul_cancel₀ _ hforward.ne'

/-- The momentum of a particle that moves forward, by its slopes. -/
theorem momentum_of_forward : c.momentum = c.ps * Real.sqrt (1 + c.xp * c.xp + c.yp * c.yp) := by
  have hsquare : c.px * c.px + c.py * c.py + c.ps * c.ps =
      c.ps ^ 2 * (1 + c.xp * c.xp + c.yp * c.yp) := by
    rw [← xp_mul_ps hforward, ← yp_mul_ps hforward]
    ring
  rw [momentum, hsquare, Scalar.sqrt_real, Real.sqrt_mul (sq_nonneg _), Real.sqrt_sq hforward.le]

theorem momentum_pos_of_forward : 0 < c.momentum := by
  rw [momentum_of_forward hforward]
  exact mul_pos hforward (sqrt_slopes_pos c.xp c.yp)

/-- The coordinates of a particle that moves forward are given by its slopes. -/
theorem ofSlopes_slopes : ofSlopes c.toOrbitPoint c.xp c.yp c.momentum = c := by
  have hps : c.momentum / Real.sqrt (1 + c.xp * c.xp + c.yp * c.yp) = c.ps := by
    rw [momentum_of_forward hforward, mul_div_cancel_right₀ _ (sqrt_slopes_pos c.xp c.yp).ne']
  rw [ofSlopes, Scalar.sqrt_real, hps, xp_mul_ps hforward, yp_mul_ps hforward]

end forward

end OrbitCoords

/-- Coordinates at the point of a position are found again from their momentum there. -/
theorem OrbitFrame.ofLocal_toLocal_momentum (frame : OrbitFrame ℝ) {position : Vec3 ℝ}
    {c : OrbitCoords ℝ} (hpoint : frame.locate position = c.toOrbitPoint) :
    frame.ofLocal ⟨position, (frame.toLocal c).momentum⟩ = c := by
  obtain ⟨hpx, hpy, hps⟩ := frame.parts_of_toLocal c
  rw [ofLocal, hpoint, hpx, hpy, hps]

namespace DipoleFringe

variable (edge : DipoleFringe ℝ)

/-! ## One kick after another -/

/-- What a whole kick adds to the horizontal slope at a point. -/
noncomputable def kickX (point : OrbitPoint ℝ) (p : ℝ) : ℝ :=
  edge.body.motion.curvature edge.body.field p * Real.tan edge.poleFace * point.x

/-- What a whole kick takes from the vertical slope at a point. -/
noncomputable def kickY (point : OrbitPoint ℝ) (p : ℝ) : ℝ :=
  edge.body.motion.curvature edge.body.field p * Real.tan (edge.poleFace - edge.correction) * point.y

section coords

variable (c : OrbitCoords ℝ) {p : ℝ}

theorem kicked_eq (share : ℝ) : edge.kicked c p share =
    .ofSlopes c.toOrbitPoint (c.xp + share * edge.kickX c.toOrbitPoint p)
      (c.yp - share * edge.kickY c.toOrbitPoint p) p := by
  simp only [kicked, kickX, kickY, Scalar.tan_real, mul_assoc]

@[simp] theorem kicked_toOrbitPoint (share : ℝ) :
    (edge.kicked c p share).toOrbitPoint = c.toOrbitPoint := rfl

/-- To the slopes that one share left, the next one adds its own. -/
theorem kicked_kicked (hp : p ≠ 0) (share further : ℝ) :
    edge.kicked (edge.kicked c p share) p further = edge.kicked c p (share + further) := by
  obtain ⟨hxp, hyp⟩ := OrbitCoords.slopes_ofSlopes c.toOrbitPoint
    (c.xp + share * edge.kickX c.toOrbitPoint p) (c.yp - share * edge.kickY c.toOrbitPoint p) hp
  rw [edge.kicked_eq (edge.kicked c p share), kicked_toOrbitPoint, kicked_eq, kicked_eq, hxp, hyp]
  congr 1
  · ring
  · ring

variable {c}

theorem kicked_zero (hforward : 0 < c.ps) : edge.kicked c c.momentum 0 = c := by
  rw [kicked_eq, zero_mul, zero_mul, add_zero, sub_zero, OrbitCoords.ofSlopes_slopes hforward]

end coords

/-- A particle that an edge kicks. -/
def MovesForward (state : State ℝ) : Prop :=
  state.momentum ≠ 0 ∧ 0 < (edge.body.frame.ofLocal state).ps

/-- The orbit coordinates behind a share of the kick. -/
noncomputable def coordsBehind (state : State ℝ) (share : ℝ) : OrbitCoords ℝ :=
  edge.kicked (edge.body.frame.ofLocal state) state.momentum.length share

variable {edge} {state : State ℝ}

theorem kickBy_of_not_movesForward (hstill : ¬ edge.MovesForward state) (share : ℝ) :
    edge.kickBy state share = state := by
  rw [kickBy, if_pos]
  rw [Bool.or_eq_true, beq_iff_eq, decide_eq_true_iff, Vec3.length_eq_zero_iff, ← not_lt]
  exact not_and_or.mp hstill |>.imp_left not_ne_iff.mp

theorem kickBy_of_movesForward (hforward : edge.MovesForward state) (share : ℝ) :
    edge.kickBy state share =
      ⟨state.position, (edge.body.frame.toLocal (edge.coordsBehind state share)).momentum⟩ := by
  rw [kickBy, if_neg]
  · rfl
  · rw [Bool.or_eq_true, beq_iff_eq, decide_eq_true_iff, Vec3.length_eq_zero_iff, not_or, not_le]
    exact hforward

theorem kickBy_position (state : State ℝ) (share : ℝ) :
    (edge.kickBy state share).position = state.position := by
  by_cases hforward : edge.MovesForward state
  · rw [kickBy_of_movesForward hforward]
  · rw [kickBy_of_not_movesForward hforward]

section forward

variable (hforward : edge.MovesForward state) (share : ℝ)

include hforward

theorem ofLocal_kickBy :
    edge.body.frame.ofLocal (edge.kickBy state share) = edge.coordsBehind state share := by
  rw [kickBy_of_movesForward hforward]
  apply OrbitFrame.ofLocal_toLocal_momentum
  rfl

theorem length_kickBy : (edge.kickBy state share).momentum.length = state.momentum.length := by
  rw [kickBy_of_movesForward hforward, OrbitFrame.length_toLocal_momentum, coordsBehind, kicked,
    OrbitCoords.momentum_ofSlopes _ _ _ state.momentum.length_nonneg]

theorem movesForward_kickBy : edge.MovesForward (edge.kickBy state share) := by
  have hmoving := state.momentum.length_pos_iff.mpr hforward.1
  constructor
  · rwa [← Vec3.length_pos_iff, length_kickBy hforward]
  · rw [ofLocal_kickBy hforward]
    exact OrbitCoords.ofSlopes_ps_pos _ _ _ hmoving

theorem coordsBehind_kickBy (further : ℝ) :
    edge.coordsBehind (edge.kickBy state share) further = edge.coordsBehind state (share + further) := by
  have hmoving := state.momentum.length_pos_iff.mpr hforward.1
  rw [coordsBehind, ofLocal_kickBy hforward, length_kickBy hforward]
  exact edge.kicked_kicked _ hmoving.ne' share further

variable {share} in
/-- A particle that is due a horizontal kick is turned by every share of it. -/
theorem kickBy_ne (hshare : share ≠ 0)
    (hkick : edge.kickX (edge.body.frame.ofLocal state).toOrbitPoint state.momentum.length ≠ 0) :
    edge.kickBy state share ≠ state := by
  intro hsame
  have hmoving := state.momentum.length_pos_iff.mpr hforward.1
  have hcoords := ofLocal_kickBy hforward share
  rw [hsame, coordsBehind, kicked_eq] at hcoords
  have hslope := congrArg OrbitCoords.xp hcoords
  rw [(OrbitCoords.slopes_ofSlopes _ _ _ hmoving.ne').1] at hslope
  exact mul_ne_zero hshare hkick (left_eq_add.mp hslope)

theorem kickBy_zero_of_movesForward : edge.kickBy state 0 = state := by
  have hcoords : edge.coordsBehind state 0 = edge.body.frame.ofLocal state := by
    rw [coordsBehind, ← OrbitFrame.momentum_ofLocal edge.body.frame state, kicked_zero edge hforward.2]
  rw [kickBy_of_movesForward hforward, hcoords, OrbitFrame.toLocal_ofLocal]

end forward

variable (edge state)

@[simp] theorem kickBy_zero : edge.kickBy state 0 = state := by
  by_cases hforward : edge.MovesForward state
  · exact kickBy_zero_of_movesForward hforward
  · exact kickBy_of_not_movesForward hforward 0

/-- Shares of the kick at one position add up. -/
theorem kickBy_kickBy (share further : ℝ) :
    edge.kickBy (edge.kickBy state share) further = edge.kickBy state (share + further) := by
  by_cases hforward : edge.MovesForward state
  · rw [kickBy_of_movesForward (movesForward_kickBy hforward share), coordsBehind_kickBy hforward,
      kickBy_position, ← kickBy_of_movesForward hforward]
  · rw [kickBy_of_not_movesForward hforward, kickBy_of_not_movesForward hforward,
      kickBy_of_not_movesForward hforward]

/-! ## Kicks of steps -/

variable {edge} (hthin : 0 < edge.thin.value)

include hthin

theorem kickFraction_of_le {h : ℝ} (hh : h ≤ edge.thin.value) :
    kickFraction edge.thin.value h = h / edge.thin.value := by
  rw [kickFraction_eq_min hthin, min_eq_left]
  exact (div_le_one hthin).mpr hh

theorem kick_of_le {h : ℝ} (hh : h ≤ edge.thin.value) :
    edge.kick state h = edge.kickBy state (h / edge.thin.value) := by
  rw [kick_eq_kickBy, kickFraction_of_le hthin hh]

theorem kick_zero : edge.kick state 0 = state := by
  rw [kick_of_le state hthin hthin.le, zero_div, kickBy_zero]

theorem kick_kick {h₁ h₂ : ℝ} (hfirst : h₁ ≤ edge.thin.value) (hsecond : h₂ ≤ edge.thin.value)
    (hsum : h₁ + h₂ ≤ edge.thin.value) :
    edge.kick (edge.kick state h₁) h₂ = edge.kick state (h₁ + h₂) := by
  rw [kick_of_le state hthin hfirst, kick_of_le _ hthin hsecond, kick_of_le state hthin hsum,
    kickBy_kickBy, add_div]

/-- The kicks of the parts of a step make up its kick. -/
theorem foldl_kick {parts : List ℝ} (hparts : ∀ h ∈ parts, 0 ≤ h)
    (hsum : parts.sum ≤ edge.thin.value) : parts.foldl edge.kick state = edge.kick state parts.sum := by
  induction parts generalizing state with
  | nil => exact (kick_zero state hthin).symm
  | cons h parts ih =>
    rw [List.sum_cons] at hsum
    have hpart : 0 ≤ h := hparts h List.mem_cons_self
    have hrest : ∀ h ∈ parts, 0 ≤ h := fun h hmem => hparts h (List.mem_cons_of_mem _ hmem)
    have hrestSum : 0 ≤ parts.sum := List.sum_nonneg hrest
    rw [List.foldl_cons, ih _ hrest (by linarith), List.sum_cons,
      kick_kick state hthin (by linarith) (by linarith) hsum]

omit hthin

/-- Over a positive thin length the kicks of an edge add up at the position that they leave fixed: two
that are each and together no longer than the thin length, the parts of any step no longer than it, and
a step and the same step back, which cancel. -/
theorem kicks_add_up (edge : DipoleFringe ℝ) (hthin : 0 < edge.thin.value) :
    (∀ (y : State ℝ) (h₁ h₂ : ℝ), h₁ ≤ edge.thin.value → h₂ ≤ edge.thin.value →
        h₁ + h₂ ≤ edge.thin.value →
        edge.kick (edge.kick y h₁) h₂ = edge.kick y (h₁ + h₂)) ∧
      (∀ (y : State ℝ) (parts : List ℝ), (∀ h ∈ parts, 0 ≤ h) → parts.sum ≤ edge.thin.value →
        parts.foldl edge.kick y = edge.kick y parts.sum ∧
          (edge.kick y parts.sum).position = y.position) ∧
      ∀ (y : State ℝ) (h : ℝ), |h| ≤ edge.thin.value → edge.kick (edge.kick y h) (-h) = y := by
  refine ⟨?_, ?_, ?_⟩
  · intro y h₁ h₂ hfirst hsecond hsum
    exact kick_kick y hthin hfirst hsecond hsum
  · intro y parts hparts hsum
    refine ⟨foldl_kick y hthin hparts hsum, ?_⟩
    rw [kick_eq_kickBy, kickBy_position]
  · intro y h hh
    obtain ⟨hlow, hhigh⟩ := abs_le.mp hh
    rw [kick_kick y hthin hhigh (by linarith) (by linarith), add_neg_cancel, kick_zero y hthin]

noncomputable def slantedBend : BendGeometry ℝ := ⟨1, -0.5, 1, 0.5, 1, 1⟩

/-- The exit edge of a bend of negative curvature, with a fringe field and a thin length of one. -/
noncomputable def slantedEdge : DipoleFringe ℝ :=
  .ofMagnet ⟨-1⟩ .empty slantedBend .exit 1 { Context.standard with thin := .fixed 1 }

namespace slantedEdge

/-- A particle that moves forward, off the orbit on both axes. -/
noncomputable def offAxis : State ℝ := ⟨⟨1, -1, 0⟩, ⟨-1, 1, 1⟩⟩

theorem curvature_bend : slantedBend.curvature = -0.5 := by
  have hangle : Significant slantedBend.angle := by norm_num [Significant, Scalar.resolution, slantedBend]
  have hlength : Significant slantedBend.arcLength := significant_of_one_le (by norm_num [slantedBend])
  rw [BendGeometry.curvature_of_isBent (BendGeometry.isBent_iff.mpr ⟨hangle, hlength⟩)]
  exact div_one _

theorem field_eq : slantedEdge.body.field = -0.5 :=
  (one_mul slantedBend.curvature).trans curvature_bend

theorem ofLocal_offAxis :
    slantedEdge.body.frame.ofLocal offAxis = { x := 1, y := -1, s := 0, px := -1, py := 1, ps := 1 } := by
  have hsignificant : Significant slantedBend.curvature := by
    norm_num [curvature_bend, Significant, Scalar.resolution]
  have hcurvature : slantedEdge.body.frame.curvature = -0.5 :=
    (OrbitFrame.curvature_ofCurvature hsignificant).trans curvature_bend
  exact slantedEdge.body.frame.ofLocal_start (by norm_num [hcurvature]) (-1) _

theorem movesForward_offAxis : slantedEdge.MovesForward offAxis := by
  refine ⟨fun hrest => ?_, by norm_num [ofLocal_offAxis]⟩
  exact absurd (congrArg Vec3.x hrest) (by norm_num [offAxis])

theorem kickX_ne_zero :
    slantedEdge.kickX (slantedEdge.body.frame.ofLocal offAxis).toOrbitPoint offAxis.momentum.length ≠ 0 := by
  have hcharge : slantedEdge.body.motion.charge ≠ 0 := neg_ne_zero.mpr one_ne_zero
  have hcoupling := mt slantedEdge.body.motion.coupling_eq_zero_iff.mp hcharge
  have hmoving := (Vec3.length_pos_iff _).mpr movesForward_offAxis.1
  have hcurved : slantedEdge.body.motion.curvature slantedEdge.body.field offAxis.momentum.length ≠ 0 :=
    div_ne_zero (mul_ne_zero hcoupling (by norm_num [field_eq])) hmoving.ne'
  have hface : slantedEdge.poleFace = 0.5 := rfl
  have htan : 0 < Real.tan slantedEdge.poleFace :=
    Real.tan_pos_of_pos_of_lt_pi_div_two (by norm_num [hface]) (by linarith [Real.pi_gt_three])
  rw [ofLocal_offAxis]
  exact mul_ne_zero (mul_ne_zero hcurved htan.ne') one_ne_zero

end slantedEdge

/-- A particle that moves forward is turned by a kick in three parts, and kicked back and forth. -/
theorem kicks_add_up_three_parts :
    let edge := slantedEdge
    let y := slantedEdge.offAxis
    0 < edge.thin.value ∧ edge.MovesForward y ∧ edge.kick y (7 / 8) ≠ y ∧
      [1 / 4, 1 / 2, 1 / 8].foldl edge.kick y = edge.kick y (7 / 8) ∧
      edge.kick (edge.kick y (-3 / 4)) (3 / 4) = y := by
  intro edge y
  have hthinOne : edge.thin.value = 1 := rfl
  have hthin : 0 < edge.thin.value := one_pos
  obtain ⟨_, hparts, hback⟩ := kicks_add_up edge hthin
  have hsum : ([1 / 4, 1 / 2, 1 / 8] : List ℝ).sum = 7 / 8 := by norm_num
  refine ⟨hthin, slantedEdge.movesForward_offAxis, ?_, ?_, ?_⟩
  · rw [kick_of_le y hthin (by norm_num [hthinOne])]
    exact kickBy_ne slantedEdge.movesForward_offAxis (by norm_num [hthinOne])
      slantedEdge.kickX_ne_zero
  · rw [← hsum]
    refine (hparts y _ ?_ ?_).1
    · intro h hmem
      simp only [List.mem_cons, List.not_mem_nil, or_false] at hmem
      rcases hmem with rfl | rfl | rfl <;> norm_num
    · rw [hsum, hthinOne]
      norm_num
  · have hturned : -(-3 / 4 : ℝ) = 3 / 4 := by norm_num
    rw [← hturned]
    apply hback
    rw [hthinOne, abs_le]
    norm_num

end DipoleFringe

end BeamTransport
