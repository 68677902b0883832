import BeamTransport.Frame
import BeamTransport.Proofs.Vec3

/-!
# Orbit coordinates are an exact change of coordinates

`toLocal_ofLocal`: going to the orbit and back changes nothing, wherever the particle is.
`ofLocal_toLocal`: going the other way only brings the distance along the orbit back to its first
turn, for coordinates on the orbit's side of the centre of curvature. `momentum_ofLocal`: the momentum
keeps its magnitude. The momentum is expanded in the moving basis of normal, vertical and tangent,
and the position is polar about the centre of curvature.
-/

namespace BeamTransport.OrbitFrame

variable (frame : OrbitFrame ℝ)

theorem isStraight_iff : frame.isStraight = true ↔ frame.curvature = 0 := beq_iff_eq

theorem not_isStraight_iff : ¬ frame.isStraight = true ↔ frame.curvature ≠ 0 :=
  not_congr frame.isStraight_iff

theorem curvature_ofCurvature {curvature : ℝ} (h : Significant curvature) :
    (ofCurvature curvature).curvature = curvature := if_pos h

/-! ## The moving basis -/

theorem normal_eq (s : ℝ) : frame.normal s =
    ⟨Real.cos (frame.curvature * s), 0, Real.sin (frame.curvature * s)⟩ := rfl

theorem tangent_eq (s : ℝ) : frame.tangent s =
    ⟨-Real.sin (frame.curvature * s), 0, Real.cos (frame.curvature * s)⟩ := rfl

theorem toLocal_momentum (c : OrbitCoords ℝ) : (frame.toLocal c).momentum =
    c.px • frame.normal c.s + (⟨0, c.py, 0⟩ : Vec3 ℝ) + c.ps • frame.tangent c.s := by
  unfold toLocal
  split_ifs <;> rfl

theorem momentum_expansion (m : Vec3 ℝ) (s : ℝ) :
    m.dot (frame.normal s) • frame.normal s + (⟨0, m.y, 0⟩ : Vec3 ℝ)
      + m.dot (frame.tangent s) • frame.tangent s = m := by
  have hsq := Real.cos_sq_add_sin_sq (frame.curvature * s)
  rw [normal_eq, tangent_eq]
  ext
  · simp only [Vec3.dot, Vec3.add_x, Vec3.smul_x]
    linear_combination m.x * hsq
  · simp only [Vec3.dot, Vec3.add_y, Vec3.smul_y]
    ring
  · simp only [Vec3.dot, Vec3.add_z, Vec3.smul_z]
    linear_combination m.z * hsq

theorem parts_of_toLocal (c : OrbitCoords ℝ) :
    (frame.toLocal c).momentum.dot (frame.normal c.s) = c.px ∧
      (frame.toLocal c).momentum.y = c.py ∧
      (frame.toLocal c).momentum.dot (frame.tangent c.s) = c.ps := by
  have hsq := Real.cos_sq_add_sin_sq (frame.curvature * c.s)
  rw [toLocal_momentum, normal_eq, tangent_eq]
  simp only [Vec3.dot, Vec3.add_x, Vec3.add_y, Vec3.add_z, Vec3.smul_x, Vec3.smul_y, Vec3.smul_z]
  refine ⟨?_, ?_, ?_⟩
  · linear_combination c.px * hsq
  · ring
  · linear_combination c.ps * hsq

theorem momentum_ofLocal (state : State ℝ) :
    (frame.ofLocal state).momentum = state.momentum.length := by
  have hsq := Real.cos_sq_add_sin_sq (frame.curvature * (frame.locate state.position).s)
  rw [OrbitCoords.momentum, Vec3.length_eq_sqrt, Scalar.sqrt_real]
  congr 1
  simp only [ofLocal, normal_eq, tangent_eq, Vec3.dot]
  linear_combination (state.momentum.x ^ 2 + state.momentum.z ^ 2) * hsq

theorem length_toLocal_momentum (c : OrbitCoords ℝ) :
    (frame.toLocal c).momentum.length = c.momentum := by
  have hsq := Real.cos_sq_add_sin_sq (frame.curvature * c.s)
  rw [OrbitCoords.momentum, Vec3.length_eq_sqrt, Scalar.sqrt_real, toLocal_momentum]
  congr 1
  simp only [normal_eq, tangent_eq, Vec3.dot, Vec3.add_x, Vec3.add_y, Vec3.add_z, Vec3.smul_x,
    Vec3.smul_y, Vec3.smul_z]
  linear_combination (c.px ^ 2 + c.ps ^ 2) * hsq

/-! ## Polar coordinates about the centre of curvature -/

variable {frame}

/-- The signed radius to a point, times the cosine and the sine of its angle along the orbit. -/
theorem radius_mul_cos_sin {sign : ℝ} (hsign : sign * sign = 1) (u z : ℝ) :
    let radius := sign * Real.sqrt (u ^ 2 + z ^ 2)
    let phi := Complex.arg ⟨sign * u, sign * z⟩
    radius * Real.cos phi = u ∧ radius * Real.sin phi = z := by
  intro radius phi
  have hnorm : ‖(⟨sign * u, sign * z⟩ : ℂ)‖ = Real.sqrt (u ^ 2 + z ^ 2) := by
    rw [Complex.norm_def, Complex.normSq_mk]
    congr 1
    linear_combination (u ^ 2 + z ^ 2) * hsign
  have hcos := Complex.norm_mul_cos_arg ⟨sign * u, sign * z⟩
  have hsin := Complex.norm_mul_sin_arg ⟨sign * u, sign * z⟩
  rw [hnorm] at hcos hsin
  refine ⟨?_, ?_⟩
  · linear_combination sign * hcos + u * hsign
  · linear_combination sign * hsin + z * hsign

/-- Without curvature the orbit coordinates are the local ones. -/
theorem ofLocal_of_straight (hstraight : frame.curvature = 0) (state : State ℝ) :
    frame.ofLocal state =
      { x := state.position.x, y := state.position.y, s := state.position.z,
        px := state.momentum.x, py := state.momentum.y, ps := state.momentum.z } := by
  rw [ofLocal, locate, if_pos (frame.isStraight_iff.mpr hstraight), normal_eq, tangent_eq, hstraight]
  simp [Vec3.dot]

theorem locate_of_bent (hbent : frame.curvature ≠ 0) (position : Vec3 ℝ) :
    frame.locate position =
      let sign := Scalar.sign frame.curvature
      let u := position.x + 1 / frame.curvature
      ⟨sign * Real.sqrt (u ^ 2 + position.z ^ 2) - 1 / frame.curvature, position.y,
        Complex.arg ⟨sign * u, sign * position.z⟩ / frame.curvature⟩ := by
  rw [locate, if_neg (frame.not_isStraight_iff.mpr hbent)]
  rfl

theorem toLocal_position_of_bent (hbent : frame.curvature ≠ 0) (c : OrbitCoords ℝ) :
    (frame.toLocal c).position =
      (⟨-(1 / frame.curvature), c.y, 0⟩ : Vec3 ℝ) + (1 / frame.curvature + c.x) • frame.normal c.s := by
  rw [toLocal, if_neg (frame.not_isStraight_iff.mpr hbent)]

variable (frame)

theorem toLocal_ofLocal (state : State ℝ) : frame.toLocal (frame.ofLocal state) = state := by
  refine State.ext ?_ ?_
  · by_cases hbent : frame.curvature = 0
    · have hstraight := frame.isStraight_iff.mpr hbent
      rw [toLocal, if_pos hstraight, ofLocal, locate, if_pos hstraight]
    · obtain ⟨hx, hz⟩ := radius_mul_cos_sin (Scalar.sign_mul_sign frame.curvature)
        (state.position.x + 1 / frame.curvature) state.position.z
      rw [toLocal_position_of_bent hbent, ofLocal, locate_of_bent hbent, normal_eq]
      dsimp only at hx hz ⊢
      rw [mul_div_cancel₀ _ hbent]
      ext
      · simp only [Vec3.add_x, Vec3.smul_x]
        linear_combination hx
      · simp only [Vec3.add_y, Vec3.smul_y]
        ring
      · simp only [Vec3.add_z, Vec3.smul_z]
        linear_combination hz
  · rw [toLocal_momentum]
    exact frame.momentum_expansion _ _

/-- The distance along the orbit at which its point after a distance is first reached, looking half
a turn ahead and back. -/
noncomputable def firstTurn (s : ℝ) : ℝ :=
  if frame.isStraight then s
  else Complex.arg ⟨Real.cos (frame.curvature * s), Real.sin (frame.curvature * s)⟩ / frame.curvature

theorem cos_sin_firstTurn (s : ℝ) :
    Real.cos (frame.curvature * frame.firstTurn s) = Real.cos (frame.curvature * s) ∧
      Real.sin (frame.curvature * frame.firstTurn s) = Real.sin (frame.curvature * s) := by
  by_cases hbent : frame.curvature = 0
  · rw [firstTurn, if_pos (frame.isStraight_iff.mpr hbent)]
    exact ⟨rfl, rfl⟩
  · set w : ℂ := ⟨Real.cos (frame.curvature * s), Real.sin (frame.curvature * s)⟩ with hw
    have hnorm : ‖w‖ = 1 := by
      rw [Complex.norm_def, hw, Complex.normSq_mk, ← sq, ← sq, Real.cos_sq_add_sin_sq, Real.sqrt_one]
    have hcos := Complex.norm_mul_cos_arg w
    have hsin := Complex.norm_mul_sin_arg w
    rw [hnorm, one_mul] at hcos hsin
    rw [firstTurn, if_neg (frame.not_isStraight_iff.mpr hbent), mul_div_cancel₀ _ hbent]
    exact ⟨hcos, hsin⟩

theorem normal_firstTurn (s : ℝ) : frame.normal (frame.firstTurn s) = frame.normal s := by
  obtain ⟨hcos, hsin⟩ := frame.cos_sin_firstTurn s
  rw [normal_eq, normal_eq, hcos, hsin]

theorem tangent_firstTurn (s : ℝ) : frame.tangent (frame.firstTurn s) = frame.tangent s := by
  obtain ⟨hcos, hsin⟩ := frame.cos_sin_firstTurn s
  rw [tangent_eq, tangent_eq, hcos, hsin]

theorem firstTurn_of_straight (hstraight : frame.isStraight = true) (s : ℝ) :
    frame.firstTurn s = s := if_pos hstraight

theorem firstTurn_of_mem {s : ℝ} (hlow : -Real.pi < frame.curvature * s)
    (hhigh : frame.curvature * s ≤ Real.pi) : frame.firstTurn s = s := by
  by_cases hbent : frame.curvature = 0
  · exact frame.firstTurn_of_straight (frame.isStraight_iff.mpr hbent) s
  · have harg := Complex.arg_cos_add_sin_mul_I ⟨hlow, hhigh⟩
    have hpoint : (⟨Real.cos (frame.curvature * s), Real.sin (frame.curvature * s)⟩ : ℂ) =
        Complex.cos ↑(frame.curvature * s) + Complex.sin ↑(frame.curvature * s) * Complex.I := by
      rw [← Complex.ofReal_cos, ← Complex.ofReal_sin]
      exact Complex.mk_eq_add_mul_I _ _
    rw [firstTurn, if_neg (frame.not_isStraight_iff.mpr hbent), hpoint, harg,
      mul_div_cancel_left₀ _ hbent]

/-- On the orbit's side of the centre the arm from the centre points the way of the orbit. -/
theorem sign_mul_arm_pos (hbent : frame.curvature ≠ 0) {x : ℝ}
    (hside : 0 < 1 + frame.curvature * x) :
    0 < Scalar.sign frame.curvature * (1 / frame.curvature + x) := by
  have hsign := Scalar.sign_mul_sign frame.curvature
  refine (mul_pos_iff_of_pos_left (abs_pos.mpr hbent)).mp ?_
  have harm : frame.curvature * (1 / frame.curvature + x) = 1 + frame.curvature * x := by
    field_simp
  have hproduct : Scalar.sign frame.curvature * frame.curvature
      * (Scalar.sign frame.curvature * (1 / frame.curvature + x)) = 1 + frame.curvature * x := by
    linear_combination harm + frame.curvature * (1 / frame.curvature + x) * hsign
  rw [← Scalar.sign_mul_self, hproduct]
  exact hside

/-- The radius and the angle of a point on an arm turned by an angle. -/
theorem polar_of_arm {sign arm : ℝ} (hsign : sign * sign = 1) (harm : 0 < sign * arm) (angle : ℝ) :
    Real.sqrt ((arm * Real.cos angle) ^ 2 + (arm * Real.sin angle) ^ 2) = sign * arm ∧
      Complex.arg ⟨sign * (arm * Real.cos angle), sign * (arm * Real.sin angle)⟩ =
        Complex.arg ⟨Real.cos angle, Real.sin angle⟩ := by
  refine ⟨?_, ?_⟩
  · rw [← Real.sqrt_sq harm.le]
    congr 1
    linear_combination arm ^ 2 * Real.cos_sq_add_sin_sq angle - arm ^ 2 * hsign
  · have hscaled : (⟨sign * (arm * Real.cos angle), sign * (arm * Real.sin angle)⟩ : ℂ) =
        ((sign * arm : ℝ) : ℂ) * ⟨Real.cos angle, Real.sin angle⟩ := by
      apply Complex.ext <;> simp [mul_assoc]
    rw [hscaled, Complex.arg_real_mul _ harm]

/-- A point on the orbit's side of the centre is found again, on the first turn. -/
theorem locate_toLocal (c : OrbitCoords ℝ) (hside : 0 < 1 + frame.curvature * c.x) :
    frame.locate (frame.toLocal c).position = ⟨c.x, c.y, frame.firstTurn c.s⟩ := by
  by_cases hbent : frame.curvature = 0
  · have hstraight := frame.isStraight_iff.mpr hbent
    rw [frame.firstTurn_of_straight hstraight, locate, if_pos hstraight, toLocal, if_pos hstraight]
  · have hsign := Scalar.sign_mul_sign frame.curvature
    obtain ⟨hradius, harg⟩ := polar_of_arm hsign (frame.sign_mul_arm_pos hbent hside)
      (frame.curvature * c.s)
    -- The arm from the centre has the sign of the curvature, so the signed radius gives it back.
    set arm := 1 / frame.curvature + c.x with harm
    have hu : -(1 / frame.curvature) + arm * Real.cos (frame.curvature * c.s)
        + 1 / frame.curvature = arm * Real.cos (frame.curvature * c.s) := by ring
    have hx : Scalar.sign frame.curvature * (Scalar.sign frame.curvature * arm)
        - 1 / frame.curvature = c.x := by
      linear_combination arm * hsign + harm
    rw [toLocal_position_of_bent hbent, locate_of_bent hbent, normal_eq, firstTurn,
      if_neg (frame.not_isStraight_iff.mpr hbent), ← harm]
    simp only [Vec3.add_x, Vec3.add_y, Vec3.add_z, Vec3.smul_x, Vec3.smul_y, Vec3.smul_z, zero_add,
      mul_zero, add_zero, hu, hradius, harg, hx]

/-- Across the start of the orbit, on its side of the centre, the offsets are the local ones. -/
theorem locate_start {x : ℝ} (hside : 0 < 1 + frame.curvature * x) (y : ℝ) :
    frame.locate ⟨x, y, 0⟩ = ⟨x, y, 0⟩ := by
  set c : OrbitCoords ℝ := { x, y, s := 0, px := 0, py := 0, ps := 0 } with hc
  have hposition : (frame.toLocal c).position = ⟨x, y, 0⟩ := by
    by_cases hbent : frame.curvature = 0
    · rw [toLocal, if_pos (frame.isStraight_iff.mpr hbent)]
    · rw [toLocal_position_of_bent hbent, normal_eq, hc]
      ext <;> simp
  have hturn : frame.firstTurn c.s = 0 :=
    frame.firstTurn_of_mem (by simp [hc, Real.pi_pos]) (by simp [hc, Real.pi_pos.le])
  rw [← hposition, frame.locate_toLocal c hside, hturn]

/-- There the parts of the momentum are the local ones too. -/
theorem ofLocal_start {x : ℝ} (hside : 0 < 1 + frame.curvature * x) (y : ℝ) (momentum : Vec3 ℝ) :
    frame.ofLocal ⟨⟨x, y, 0⟩, momentum⟩ =
      { x, y, s := 0, px := momentum.x, py := momentum.y, ps := momentum.z } := by
  rw [ofLocal, frame.locate_start hside, normal_eq, tangent_eq]
  simp [Vec3.dot]

/-- From the orbit to local coordinates and back, only the count of turns is lost. -/
theorem ofLocal_toLocal (c : OrbitCoords ℝ) (hside : 0 < 1 + frame.curvature * c.x) :
    frame.ofLocal (frame.toLocal c) = { c with s := frame.firstTurn c.s } := by
  obtain ⟨hpx, hpy, hps⟩ := frame.parts_of_toLocal c
  rw [ofLocal, frame.locate_toLocal c hside, normal_firstTurn, tangent_firstTurn, hpx, hpy, hps]

/-- Orbit coordinates in the frame of a curvature are an exact change of coordinates: back and forth
from any local state, forth and back from any coordinates on a straight orbit and else from those on
the orbit's side of its centre and within half a turn, and with the momentum kept in magnitude. -/
theorem orbit_coordinates_exact (curvature : ℝ) :
    let frame := ofCurvature curvature
    (∀ state : State ℝ, frame.toLocal (frame.ofLocal state) = state) ∧
      (∀ c : OrbitCoords ℝ,
        frame.isStraight = true ∨
          0 < 1 + frame.curvature * c.x ∧
            -Real.pi < frame.curvature * c.s ∧ frame.curvature * c.s ≤ Real.pi →
        frame.ofLocal (frame.toLocal c) = c) ∧
      ∀ state : State ℝ, (frame.ofLocal state).momentum = state.momentum.length := by
  intro frame
  refine ⟨frame.toLocal_ofLocal, ?_, frame.momentum_ofLocal⟩
  rintro c (hstraight | ⟨hside, hlow, hhigh⟩)
  · have hside : 0 < 1 + frame.curvature * c.x := by
      rw [frame.isStraight_iff.mp hstraight, zero_mul, add_zero]
      exact one_pos
    rw [frame.ofLocal_toLocal c hside, frame.firstTurn_of_straight hstraight]
  · rw [frame.ofLocal_toLocal c hside, frame.firstTurn_of_mem hlow hhigh]

/-- A particle that moves backwards, on the inside of an orbit of negative curvature and nearly half
a turn along it. -/
theorem orbit_coordinates_exact_nearly_half_turn :
    let frame : OrbitFrame ℝ := ofCurvature (-2)
    let c : OrbitCoords ℝ := { x := 1 / 4, y := -2, s := 3 / 2, px := 3, py := 1, ps := -2 }
    0 < 1 + frame.curvature * c.x ∧ -Real.pi < frame.curvature * c.s ∧
      frame.curvature * c.s ≤ Real.pi ∧ frame.ofLocal (frame.toLocal c) = c := by
  intro frame c
  have hsignificant : Significant (-2 : ℝ) := significant_of_one_le (by norm_num)
  have hcurvature : frame.curvature = -2 := curvature_ofCurvature hsignificant
  have hpi := Real.pi_gt_three
  have hside : 0 < 1 + frame.curvature * c.x := by
    rw [hcurvature]
    norm_num [c]
  have hlow : -Real.pi < frame.curvature * c.s := by
    rw [hcurvature]
    norm_num [c]
    linarith
  have hhigh : frame.curvature * c.s ≤ Real.pi := by
    rw [hcurvature]
    norm_num [c]
    linarith
  exact ⟨hside, hlow, hhigh, (orbit_coordinates_exact (-2)).2.1 c (Or.inr ⟨hside, hlow, hhigh⟩)⟩

end BeamTransport.OrbitFrame

/-! ## Slopes -/

namespace BeamTransport.OrbitCoords

theorem slopes_pos (xp yp : ℝ) : 0 < 1 + xp * xp + yp * yp := by
  nlinarith [mul_self_nonneg xp, mul_self_nonneg yp]

theorem sqrt_slopes_pos (xp yp : ℝ) : 0 < Real.sqrt (1 + xp * xp + yp * yp) :=
  Real.sqrt_pos.mpr (slopes_pos xp yp)

end BeamTransport.OrbitCoords
