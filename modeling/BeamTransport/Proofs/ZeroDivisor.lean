import BeamTransport.Proofs.CarriedOut
import BeamTransport.Proofs.Magnet
import BeamTransport.Proofs.Momentum

/-!
# Division by zero

`Division.checked` stops at a divisor of zero, and otherwise divides real numbers as ever. Under its watch the
algorithms other than the linear matrix come to what they always come to, whatever the magnet, the charge, the
state and the length of the step, unless the particle is at rest where its direction is taken; and there they
stop (`Magnet.division_by_zero_only_at_rest`). The guards of the formulas keep zero out of all other divisors but
the cosine of a pole face, which none of them looks at.

The direction of a vector takes the reciprocal of its length first and judges it then. What stands for the
reciprocal of zero is of no consequence, since it is a multiple of zero that it gives or else zero itself
(`Division.direction_dividing`).
-/

namespace BeamTransport

namespace Division

noncomputable def checkedQuotient (a b : ℝ) : Except DivisionByZero ℝ :=
  if b = 0 then .error .quotient else .ok (a / b)

/-- Divisions that stop at a divisor of zero. -/
noncomputable def checked : Division (Except DivisionByZero) ℝ where
  quotient := checkedQuotient
  reciprocal length := if length = 0 then .error .direction else .ok (1 / length)

/-- Divisions that stop at a divisor of zero, except at the length of a vector whose direction is taken. There a
given number stands for its reciprocal. -/
noncomputable def excusing (reciprocalOfZero : ℝ) : Division (Except DivisionByZero) ℝ where
  quotient := checkedQuotient
  reciprocal length := .ok (if length = 0 then reciprocalOfZero else 1 / length)

theorem checkedQuotient_of_ne_zero (a : ℝ) {b : ℝ} (hb : b ≠ 0) : checkedQuotient a b = .ok (a / b) :=
  if_neg hb

/-- The watch stops at the direction of zero, and of no other vector. -/
theorem checked_direction_comesTo (a : Vec3 ℝ) : ComesTo (checked.direction a) a.direction (a = 0) := by
  constructor
  · intro hzero
    have hreciprocal : checked.reciprocal a.length = .error .direction :=
      if_pos (a.length_eq_zero_iff.mpr hzero)
    rw [direction, hreciprocal]
    rfl
  · intro hmoving
    have hreciprocal : checked.reciprocal a.length = .ok (1 / a.length) :=
      if_neg (mt a.length_eq_zero_iff.mp hmoving)
    rw [direction, hreciprocal]
    rfl

/-- The direction of a vector depends on no division by zero: without length it is a multiple of zero. -/
theorem direction_dividing {quotient : ℝ → ℝ → ℝ} (hquotient : ∀ a b, b ≠ 0 → quotient a b = a / b)
    (a : Vec3 ℝ) : @Vec3.direction ℝ (.dividing quotient) a = a.direction := by
  have hdirection : @Vec3.direction ℝ (.dividing quotient) a =
      if Scalar.isFinite (quotient 1 a.length) ∧ 0 < quotient 1 a.length then quotient 1 a.length • a
      else 0 := rfl
  rw [hdirection]
  by_cases hzero : a = 0
  · rw [hzero, smul_zero, ite_self, Vec3.direction_zero]
  · rw [hquotient 1 _ (mt a.length_eq_zero_iff.mp hzero)]
    rfl

theorem excusing_direction (reciprocalOfZero : ℝ) (a : Vec3 ℝ) :
    (excusing reciprocalOfZero).direction a = .ok a.direction := by
  let quotient (b c : ℝ) : ℝ := if c = 0 then reciprocalOfZero else b / c
  have hquotient (b c : ℝ) (hc : c ≠ 0) : quotient b c = b / c := if_neg hc
  exact congrArg Except.ok (direction_dividing hquotient a)

/-- Over the reals the guards keep zero out, whatever carries out the divisions; and whether a momentum counts as
standing still is decided by its magnitude, which helices and kicks keep. -/
theorem carriesOut_of_ne_zero {d : Division (Except DivisionByZero) ℝ} {still : Vec3 ℝ → Prop}
    (hquotient : ∀ a b, b ≠ 0 → d.quotient a b = pure (a / b))
    (hdirection : ∀ a, ComesTo (d.direction a) a.direction (still a))
    (hmoving : ∀ a : Vec3 ℝ, a ≠ 0 → ¬ still a)
    (hkept : ∀ a b : Vec3 ℝ, a.length = b.length → (still a ↔ still b)) :
    d.CarriesOut (· / ·) (· ≠ 0) still where
  quotient_eq a _ hb := hquotient a _ hb
  direction_comesTo := hdirection
  of_significant ha := ha.ne_zero
  of_ne ha := fun hzero => ha (beq_iff_eq.mpr hzero)
  of_pos ha := ha.ne'
  of_not_nonpos ha := (not_le.mp ha).ne'
  mul := mul_ne_zero
  slopes xp yp := (OrbitCoords.sqrt_slopes_pos xp yp).ne'
  ofNat_succ n := Nat.cast_ne_zero.mpr n.succ_ne_zero
  ofNat_add_one n := by
    have hpos : (0 : ℝ) < n + 1 := n.cast_add_one_pos
    exact hpos.ne'
  not_still {a} ha := hmoving a fun hzero => ha (beq_iff_eq.mpr (a.length_eq_zero_iff.mpr hzero))
  still_helix motion state field h := hkept _ _ (motion.length_helix state field h)
  still_rotate motion momentum field h := hkept _ _ (motion.length_rotate momentum field h)
  still_kick edge state h := hkept _ _ (edge.length_kick state h)

theorem checked_carriesOut : checked.CarriesOut (· / ·) (· ≠ 0) (· = 0) := by
  refine carriesOut_of_ne_zero (fun a _ => checkedQuotient_of_ne_zero a) checked_direction_comesTo
    (fun _ => id) fun a b hlength => ?_
  rw [← a.length_eq_zero_iff, hlength, b.length_eq_zero_iff]

/-- Divisions that keep the quotients by what is not zero and never stop at a direction. -/
theorem carriesOut_of_direction_eq {d : Division (Except DivisionByZero) ℝ}
    (hquotient : ∀ a b, b ≠ 0 → d.quotient a b = pure (a / b))
    (hdirection : ∀ a, d.direction a = pure a.direction) :
    d.CarriesOut (· / ·) (· ≠ 0) fun _ => False :=
  carriesOut_of_ne_zero hquotient (fun a => .of_eq_pure (hdirection a)) (fun _ _ => id) fun _ _ _ => Iff.rfl

theorem excusing_carriesOut (reciprocalOfZero : ℝ) :
    (excusing reciprocalOfZero).CarriesOut (· / ·) (· ≠ 0) fun _ => False :=
  carriesOut_of_direction_eq (fun a _ => checkedQuotient_of_ne_zero a) (excusing_direction reciprocalOfZero)

theorem plain_carriesOut_of_ne_zero {quotient : ℝ → ℝ → ℝ}
    (hquotient : ∀ a b, b ≠ 0 → quotient a b = a / b) :
    (plain quotient).CarriesOut (· / ·) (· ≠ 0) fun _ => False :=
  carriesOut_of_direction_eq (fun a b hb => congrArg Except.ok (hquotient a b hb))
    fun a => congrArg Except.ok (direction_dividing hquotient a)

end Division

namespace Magnet

variable {magnet : Magnet ℝ} {set : IntegratorSet} {motion : Motion ℝ} {context : Context ℝ}
  {i : Integrator ℝ}

/-- An integrator that was built is the one of its own kind. -/
theorem integratorOf_kind_of_integrator (hi : magnet.integrator set motion context = .ok i) :
    magnet.integratorOf motion context i.kind = .ok i := by
  cases hcheck : magnet.check with
  | error error =>
    rw [integrator_of_fault set motion context hcheck] at hi
    exact nomatch hi
  | ok =>
    rw [integrator_of_check set motion context hcheck] at hi
    rwa [(kind_of_integratorOf hi).1]

/-- Divisions that keep the quotients by what is not zero give the integrator, ready to be run. -/
theorem course_of_carriesOut {d : Division (Except DivisionByZero) ℝ} {still : Vec3 ℝ → Prop}
    (hd : d.CarriesOut (· / ·) (· ≠ 0) still)
    (hface : ∀ face, Real.cos (magnet.geometry.poleFace face) ≠ 0)
    (hi : magnet.integrator set motion context = .ok i) (hkind : i.kind ≠ .dipoleQuadrupole) :
    ∃ course, d.course magnet motion context i.kind = .ok (some course) ∧ course.Executes i still := by
  obtain ⟨built, hcourse, hexecutes⟩ := hd.course_executes magnet motion context hkind (hface magnet.face)
  have hbuilt : magnet.integratorOf motion context i.kind = .ok i := integratorOf_kind_of_integrator hi
  change Option.Rel (fun (course : Course (Except DivisionByZero) ℝ) i => course.Executes i still) built
    (magnet.integratorOf motion context i.kind).toOption at hexecutes
  rw [hbuilt] at hexecutes
  cases hexecutes with
  | some hexecutes => exact ⟨_, hcourse, hexecutes⟩

/-- Divisions that never stop give the integrator without a watch. -/
theorem course_eq_of_carriesOut {d : Division (Except DivisionByZero) ℝ}
    (hd : d.CarriesOut (· / ·) (· ≠ 0) fun _ => False)
    (hface : ∀ face, Real.cos (magnet.geometry.poleFace face) ≠ 0)
    (hi : magnet.integrator set motion context = .ok i) (hkind : i.kind ≠ .dipoleQuadrupole) :
    d.course magnet motion context i.kind = .ok (some i.course) := by
  obtain ⟨course, hcourse, hexecutes⟩ := course_of_carriesOut hd hface hi hkind
  rw [hcourse, hexecutes.eq_course]

/-- In the arithmetic of such divisions the magnet is built into the same integrator. -/
theorem integratorOf_dividing {quotient : ℝ → ℝ → ℝ} (hquotient : ∀ a b, b ≠ 0 → quotient a b = a / b)
    (hface : ∀ face, Real.cos (magnet.geometry.poleFace face) ≠ 0)
    (hi : magnet.integrator set motion context = .ok i) (hkind : i.kind ≠ .dipoleQuadrupole) :
    ∃ j, @Magnet.integratorOf ℝ (.dividing quotient) magnet motion context i.kind = .ok j ∧
      (∀ state, @Integrator.derivative ℝ (.dividing quotient) j state = i.derivative state) ∧
      ∀ state dydx h, @Integrator.stepWith ℝ (.dividing quotient) j state dydx h =
        i.stepWith state dydx h := by
  have hcourse := course_eq_of_carriesOut (Division.plain_carriesOut_of_ne_zero hquotient) hface hi hkind
  rw [Division.course_plain quotient magnet motion context hkind] at hcourse
  obtain ⟨j, hj, hsame⟩ := Option.map_eq_some_iff.mp (Except.ok.inj hcourse)
  cases hbuilt : @Magnet.integratorOf ℝ (.dividing quotient) magnet motion context i.kind with
  | error error =>
    rw [hbuilt] at hj
    exact nomatch hj
  | ok built =>
    rw [hbuilt] at hj
    cases hj
    have hderivative (state : State ℝ) := congrFun (congrArg Course.derivative hsame) state
    have hstep (state dydx : State ℝ) (h : ℝ) :=
      congrFun (congrFun (congrFun (congrArg Course.step hsame) state) dydx) h
    exact ⟨j, rfl, fun state => Except.ok.inj (hderivative state),
      fun state dydx h => Except.ok.inj (hstep state dydx h)⟩

/-- No integrator but the linear matrix divides by zero, as long as the cosine of the pole faces is not zero,
except where it takes the direction of a particle at rest. Under the watch of a division that stops at a divisor
of zero it is built; its derivative stops exactly at the states at rest, and its step exactly if one of its stages
is at rest, and otherwise they come to what they come to without watch. All other divisors are not zero even
there: a watch that excuses directions never stops, whatever stands for the reciprocal of zero. The formulas of the
geometry never stop.

The watch sees every division: with any function in the place of the quotient, the integrator under watch is the
one of the arithmetic that divides by this function. Nor does anything depend on what such a function makes of a
division by zero. -/
theorem division_by_zero_only_at_rest (hface : ∀ face, Real.cos (magnet.geometry.poleFace face) ≠ 0)
    (hi : magnet.integrator set motion context = .ok i) (hkind : i.kind ≠ .dipoleQuadrupole) :
    (∃ course, Division.checked.course magnet motion context i.kind = .ok (some course) ∧
      course.Executes i (· = 0)) ∧
    (∀ reciprocalOfZero, (Division.excusing reciprocalOfZero).course magnet motion context i.kind =
      .ok (some i.course)) ∧
    (Division.checked.orbitCurvature magnet.geometry = .ok magnet.geometry.curvature ∧
      Division.checked.radius? magnet.geometry = .ok magnet.geometry.radius? ∧
      Division.checked.chordLength magnet.geometry = .ok magnet.geometry.chordLength ∧
      ∀ face,
        Division.checked.correction magnet.geometry face = .ok (magnet.geometry.correction face)) ∧
    (∀ quotient : ℝ → ℝ → ℝ,
      (Division.plain quotient).course magnet motion context i.kind =
        .ok ((@Magnet.integratorOf ℝ (.dividing quotient) magnet motion context i.kind).toOption.map
          (@Integrator.course ℝ (.dividing quotient)))) ∧
    ∀ quotient : ℝ → ℝ → ℝ, (∀ a b, b ≠ 0 → quotient a b = a / b) →
      ∃ j, @Magnet.integratorOf ℝ (.dividing quotient) magnet motion context i.kind = .ok j ∧
        (∀ state, @Integrator.derivative ℝ (.dividing quotient) j state = i.derivative state) ∧
        ∀ state dydx h,
          @Integrator.stepWith ℝ (.dividing quotient) j state dydx h = i.stepWith state dydx h := by
  have hchecked := Division.checked_carriesOut
  have hgeometry : Division.checked.orbitCurvature magnet.geometry = .ok magnet.geometry.curvature ∧
      Division.checked.radius? magnet.geometry = .ok magnet.geometry.radius? ∧
      Division.checked.chordLength magnet.geometry = .ok magnet.geometry.chordLength ∧
      ∀ face, Division.checked.correction magnet.geometry face = .ok (magnet.geometry.correction face) :=
    ⟨hchecked.orbitCurvature_eq _, hchecked.radius?_eq _, hchecked.chordLength_eq _,
      fun face => hchecked.correction_eq _ face (hface face)⟩
  exact ⟨course_of_carriesOut hchecked hface hi hkind,
    fun reciprocalOfZero =>
      course_eq_of_carriesOut (Division.excusing_carriesOut reciprocalOfZero) hface hi hkind,
    hgeometry,
    fun quotient => Division.course_plain quotient magnet motion context hkind,
    fun quotient hquotient => integratorOf_dividing hquotient hface hi hkind⟩

/-- The edge of a bend of radius one, with oblique pole faces and a fringe field. -/
noncomputable def obliqueEdge : Magnet ℝ where
  kind := .dipoleFringe
  rigidity := 1
  strengths := Strengths.empty.set .k1 1
  geometry := ⟨1, 1, 1, -1, 0.5, 1⟩
  face := .entrance

theorem cos_poleFace_obliqueEdge (face : Face) : Real.cos (obliqueEdge.geometry.poleFace face) ≠ 0 := by
  cases face with
  | entrance => exact Real.cos_one_pos.ne'
  | exit => exact (Real.cos_neg 1).trans_ne Real.cos_one_pos.ne'

theorem integrator_obliqueEdge : obliqueEdge.integrator Profile.bdsimTwo.set ⟨0⟩ .standard =
    .ok (.dipoleFringe (.ofMagnet ⟨0⟩ obliqueEdge.strengths obliqueEdge.geometry .entrance 1 .standard)) :=
  integrator_of_check _ _ _ (check_eq_ok_iff.mpr ⟨one_ne_zero, zero_le_one, id⟩)

/-- A neutral particle that moves backward at the centre of curvature is stepped through the edge over no length
without a division by zero; and at rest there, without any but that of its direction. -/
theorem division_by_zero_only_at_rest_oblique_edge :
    (∀ face, Real.cos (obliqueEdge.geometry.poleFace face) ≠ 0) ∧
      ∃ i, obliqueEdge.integrator Profile.bdsimTwo.set ⟨0⟩ .standard = .ok i ∧
        i.kind ≠ .dipoleQuadrupole ∧
        (∃ course, Division.checked.course obliqueEdge ⟨0⟩ .standard i.kind = .ok (some course) ∧
          ∀ dydx, course.step ⟨⟨-1, 0, 0⟩, ⟨0, 0, -1⟩⟩ dydx 0 =
            .ok (i.stepWith ⟨⟨-1, 0, 0⟩, ⟨0, 0, -1⟩⟩ dydx 0)) ∧
        ∃ course, (Division.excusing 7).course obliqueEdge ⟨0⟩ .standard i.kind = .ok (some course) ∧
          ∀ dydx, course.step ⟨⟨-1, 0, 0⟩, 0⟩ dydx 0 = .ok (i.stepWith ⟨⟨-1, 0, 0⟩, 0⟩ dydx 0) := by
  have hkind : IntegratorKind.dipoleFringe ≠ .dipoleQuadrupole := by decide
  have hmoving : ¬ (⟨0, 0, -1⟩ : Vec3 ℝ) = 0 := fun hzero => by simpa using congrArg Vec3.z hzero
  obtain ⟨⟨course, hcourse, hexecutes⟩, hexcusing, -⟩ :=
    division_by_zero_only_at_rest cos_poleFace_obliqueEdge integrator_obliqueEdge hkind
  refine ⟨cos_poleFace_obliqueEdge, _, integrator_obliqueEdge, hkind, ⟨course, hcourse, fun dydx => ?_⟩,
    _, hexcusing 7, fun _ => rfl⟩
  refine (hexecutes.step _ dydx 0).eq_pure ?_
  rintro ⟨stage, hstage, hrest⟩
  rw [List.mem_singleton.mp hstage] at hrest
  exact hmoving hrest

/-- The derivative and every step through the edge divide the momentum of a particle at rest by its magnitude,
which is zero, for its direction. A step of Runge-Kutta also does so to a moving one, if the change that the step
is given brings it to rest at a stage. -/
theorem direction_divides_by_zero :
    (∀ face, Real.cos (obliqueEdge.geometry.poleFace face) ≠ 0) ∧
      (∃ i, obliqueEdge.integrator Profile.bdsimTwo.set ⟨0⟩ .standard = .ok i ∧
        i.kind ≠ .dipoleQuadrupole ∧
        ∃ course, Division.checked.course obliqueEdge ⟨0⟩ .standard i.kind = .ok (some course) ∧
          course.derivative ⟨0, 0⟩ = .error .direction ∧
          ∀ dydx h, course.step ⟨0, 0⟩ dydx h = .error .direction) ∧
      ∃ i, obliqueEdge.integrator Profile.geant4.set ⟨0⟩ .standard = .ok i ∧
        i.kind ≠ .dipoleQuadrupole ∧
        ∃ course, Division.checked.course obliqueEdge ⟨0⟩ .standard i.kind = .ok (some course) ∧
          course.step ⟨0, ⟨0, 0, 1⟩⟩ ⟨0, ⟨0, 0, -4⟩⟩ 1 = .error .direction := by
  have hcheck : obliqueEdge.check = .ok () := check_eq_ok_iff.mpr ⟨one_ne_zero, zero_le_one, id⟩
  have hfringe : IntegratorKind.dipoleFringe ≠ .dipoleQuadrupole := by decide
  have hmethod : IntegratorKind.rungeKutta ≠ .dipoleQuadrupole := by decide
  have hbuilt : obliqueEdge.integrator Profile.geant4.set ⟨0⟩ .standard =
      .ok (.rungeKutta ⟨⟨0⟩, FieldMap.dipole (obliqueEdge.geometry.field 1)⟩) :=
    integrator_of_check _ _ _ hcheck
  obtain ⟨edge, hedge, hkicks⟩ :=
    course_of_carriesOut Division.checked_carriesOut cos_poleFace_obliqueEdge integrator_obliqueEdge hfringe
  obtain ⟨course, hcourse, hfollows⟩ :=
    course_of_carriesOut Division.checked_carriesOut cos_poleFace_obliqueEdge hbuilt hmethod
  refine ⟨cos_poleFace_obliqueEdge,
    ⟨_, integrator_obliqueEdge, hfringe, edge, hedge, (hkicks.derivative _).stops rfl, fun dydx h => ?_⟩,
    _, hbuilt, hmethod, course, hcourse, (hfollows.step _ _ 1).stops ?_⟩
  · exact (hkicks.step _ dydx h).stops ⟨_, List.mem_singleton_self _, rfl⟩
  -- A quarter of the change that is given leads to the first stage.
  · refine ⟨_, List.mem_cons_self, ?_⟩
    ext <;> norm_num

end Magnet

end BeamTransport
