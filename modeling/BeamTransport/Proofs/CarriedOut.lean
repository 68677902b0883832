import BeamTransport.Proofs.Division

/-!
# Divisions that are carried out

When a division carries out a quotient wherever the divisor counts as not zero, each formula under watch
comes to the same formula of the library (`Division.CarriesOut`), because its guards let no other divisor
through. Only directions have no guard in front of them: a formula that takes the direction of a vector stops
there if the vector stands still, and it is stopped by nothing else (`ComesTo`). There is one lemma for each
formula, and from them `Division.CarriesOut.course_executes` for a whole integrator.

The formulas under watch leave out no division: with any function in the place of the quotient they are the
formulas of the library, in the arithmetic that divides by this function (`Division.course_plain`).
-/

namespace BeamTransport

/-! ## What a watched computation comes to -/

/-- What a divisor of zero stands in: a quotient, or the reciprocal that a direction is taken by. -/
inductive DivisionByZero where
  | quotient
  | direction

/-- A computation that comes to a value, unless something stands still: then it stops at a direction. -/
structure ComesTo {β : Type} (x : Except DivisionByZero β) (value : β) (still : Prop) : Prop where
  stops (h : still) : x = .error .direction
  eq_pure (h : ¬ still) : x = pure value

namespace ComesTo

variable {β γ : Type} {x : Except DivisionByZero β} {f : β → Except DivisionByZero γ} {value : β} {result : γ}
  {still later : Prop}

theorem of_eq_pure (hx : x = pure value) : ComesTo x value False := ⟨False.elim, fun _ => hx⟩

theorem congr (hx : ComesTo x value still) (h : still ↔ later) : ComesTo x value later :=
  ⟨fun hlater => hx.stops (h.mpr hlater), fun hlater => hx.eq_pure (mt h.mp hlater)⟩

/-- What follows a computation is reached unless that has stopped. -/
theorem bind (hx : ComesTo x value still) (hf : ComesTo (f value) result later) :
    ComesTo (x >>= f) result (still ∨ later) := by
  by_cases hstill : still
  · rw [hx.stops hstill]
    exact ⟨fun _ => rfl, fun hmoving => absurd (Or.inl hstill) hmoving⟩
  · rw [hx.eq_pure hstill, pure_bind]
    exact hf.congr (or_iff_right hstill).symm

theorem bind_self (hx : ComesTo x value still) (hf : ComesTo (f value) result still) :
    ComesTo (x >>= f) result still := (hx.bind hf).congr (or_self_iff)

theorem map (hx : ComesTo x value still) (g : β → γ) :
    ComesTo (x >>= fun a => pure (g a)) (g value) still := by
  have hg : ComesTo (pure (g value)) (g value) False := of_eq_pure rfl
  exact (hx.bind hg).congr (or_iff_left not_false)

/-- A guarded formula comes to what its branches come to. -/
theorem guarded {guard : Prop} [Decidable guard] {y : Except DivisionByZero β} {a b : β}
    (hx : guard → ComesTo x a still) (hy : ¬ guard → ComesTo y b still) :
    ComesTo (if guard then x else y) (if guard then a else b) still := by
  by_cases hguard : guard
  · rw [if_pos hguard, if_pos hguard]
    exact hx hguard
  · rw [if_neg hguard, if_neg hguard]
    exact hy hguard

end ComesTo

/-- A watched integrator stops exactly at a state or a stage that stands still, and otherwise comes to what the
integrator comes to. -/
structure Course.Executes {α : Type} [Scalar α] (course : Course (Except DivisionByZero) α) (i : Integrator α)
    (still : Vec3 α → Prop) : Prop where
  derivative (state : State α) :
    ComesTo (course.derivative state) (i.derivative state) (still state.momentum)
  step (state dydx : State α) (h : α) :
    ComesTo (course.step state dydx h) (i.stepWith state dydx h)
      (∃ stage ∈ i.stages state dydx h, still stage.momentum)

/-- The arithmetic that takes a given function for the quotient. -/
@[reducible]
def Scalar.dividing {α : Type} [Scalar α] (quotient : α → α → α) : Scalar α :=
  { ‹Scalar α› with div := ⟨quotient⟩ }

/-- The derivative and the step of an integrator, without a watch. -/
def Integrator.course {α : Type} [Scalar α] (i : Integrator α) : Course (Except DivisionByZero) α where
  derivative state := pure (i.derivative state)
  step state dydx h := pure (i.stepWith state dydx h)

/-- Where nothing counts as standing still, the watch never stops. -/
theorem Course.Executes.eq_course {α : Type} [Scalar α] {course : Course (Except DivisionByZero) α}
    {i : Integrator α} (hexecutes : course.Executes i fun _ => False) : course = i.course := by
  refine Course.ext (funext fun state => ?_) (funext fun state => funext fun dydx => funext fun h => ?_)
  · exact (hexecutes.derivative state).eq_pure not_false
  · exact (hexecutes.step state dydx h).eq_pure fun ⟨_, _, hstill⟩ => hstill

namespace Division

variable {α : Type} [Scalar α]

/-- A division carries out a quotient wherever the divisor counts as not zero, and the guards of the formulas
make their divisors count as not zero. A direction is carried out unless the vector counts as standing still, and
neither helices nor kicks bring a momentum to rest or move one that was. -/
structure CarriesOut (d : Division (Except DivisionByZero) α) (quotient : α → α → α) (nonzero : α → Prop)
    (still : Vec3 α → Prop) : Prop where
  quotient_eq (a : α) {b : α} (hb : nonzero b) : d.quotient a b = pure (quotient a b)
  direction_comesTo (a : Vec3 α) : ComesTo (d.direction a) (@Vec3.direction α (.dividing quotient) a) (still a)
  of_significant {a : α} (ha : Significant a) : nonzero a
  of_ne {a : α} (ha : ¬ (a == 0) = true) : nonzero a
  of_pos {a : α} (ha : 0 < a) : nonzero a
  of_not_nonpos {a : α} (ha : ¬ a ≤ 0) : nonzero a
  mul {a b : α} (ha : nonzero a) (hb : nonzero b) : nonzero (a * b)
  slopes (xp yp : α) : nonzero (Scalar.sqrt (1 + xp * xp + yp * yp))
  ofNat_succ (n : Nat) : nonzero (Scalar.ofNat (n + 1))
  ofNat_add_one (n : Nat) : nonzero (Scalar.ofNat n + 1)
  not_still {a : Vec3 α} (ha : ¬ (a.length == 0) = true) : ¬ still a
  still_helix (motion : Motion α) (state : State α) (field : Vec3 α) (h : α) :
    still (@Motion.helix α (.dividing quotient) motion state field h).momentum ↔ still state.momentum
  still_rotate (motion : Motion α) (momentum field : Vec3 α) (h : α) :
    still (@Motion.rotate α (.dividing quotient) motion momentum field h) ↔ still momentum
  still_kick (edge : DipoleFringe α) (state : State α) (h : α) :
    still (@DipoleFringe.kick α (.dividing quotient) edge state h).momentum ↔ still state.momentum

theorem toOption_integratorOf_rungeKutta (magnet : Magnet α) (motion : Motion α) (context : Context α) :
    (magnet.integratorOf motion context .rungeKutta).toOption =
      magnet.field?.map fun map => .rungeKutta ⟨motion, map⟩ := by
  rw [Magnet.integratorOf, Magnet.field]
  cases magnet.field? <;> rfl

section

variable (quotient : α → α → α)

theorem comparing_dividing (out coarse : State α) :
    Step.comparing out coarse = @Step.comparing α (.dividing quotient) out coarse := rfl

/-- Turning a field divides by nothing. -/
theorem skewBy_dividing (angle : α) {field : Vec3 α → Except DivisionByZero (Vec3 α)} {map : FieldMap α}
    (hfield : ∀ position, field position = pure (map position)) (position : Vec3 α) :
    skewBy angle field position = pure (@FieldMap.skew α (.dividing quotient) angle map position) := by
  rw [skewBy, hfield, pure_bind]
  rfl

end

theorem guarded_eq {β : Type} {guard : Prop} [Decidable guard] {x y : Except DivisionByZero β} {a b : β}
    (hx : guard → x = pure a) (hy : ¬ guard → y = pure b) :
    (if guard then x else y) = pure (if guard then a else b) := by
  have hguarded : ComesTo (if guard then x else y) (if guard then a else b) False :=
    .guarded (fun hguard => .of_eq_pure (hx hguard)) fun hguard => .of_eq_pure (hy hguard)
  exact hguarded.eq_pure not_false

omit [Scalar α] in
theorem still_start_iff {still : Vec3 α → Prop} (state : State α) :
    still state.momentum ↔ ∃ stage ∈ [state], still stage.momentum := by
  simp only [List.mem_singleton, exists_eq_left]

namespace CarriesOut

variable {d : Division (Except DivisionByZero) α} {q : α → α → α} {nonzero : α → Prop} {still : Vec3 α → Prop}
  (hd : d.CarriesOut q nonzero still)

include hd

/-! ### Single quotients -/

theorem orbitCurvature_eq (g : BendGeometry α) :
    d.orbitCurvature g = pure (@BendGeometry.curvature α (.dividing q) g) := by
  refine guarded_eq (fun hbent => ?_) fun _ => rfl
  have hlength : Significant g.arcLength := (of_decide_eq_true hbent).2
  exact hd.quotient_eq _ (hd.of_significant hlength)

theorem chordLength_eq (g : BendGeometry α) :
    d.chordLength g = pure (@BendGeometry.chordLength α (.dividing q) g) := by
  refine guarded_eq (fun hbent => ?_) fun _ => rfl
  have hangle : Significant g.angle := (of_decide_eq_true hbent).1
  exact hd.quotient_eq _ (hd.of_significant hangle)

theorem fringeCorrection_eq (radius fringeIntegral halfGap : α) {poleFace : α}
    (hface : nonzero (Scalar.cos poleFace)) :
    d.fringeCorrection radius poleFace fringeIntegral halfGap =
      pure (@BeamTransport.fringeCorrection α (.dividing q) radius poleFace fringeIntegral halfGap) := by
  refine guarded_eq (fun hfringe => ?_) fun _ => rfl
  have hradius := hd.of_significant hfringe.2.2
  exact hd.quotient_eq _ (hd.mul hradius hface)

theorem pathCurvature_eq (motion : Motion α) (field : α) {momentum : α} (hp : nonzero momentum) :
    d.pathCurvature motion field momentum =
      pure (@Motion.curvature α (.dividing q) motion field momentum) :=
  hd.quotient_eq _ hp

theorem chord_eq (kappa h : α) :
    d.chord kappa h = pure (@Motion.chord α (.dividing q) kappa h) := by
  refine guarded_eq (fun hkappa => ?_) fun _ => rfl
  exact hd.quotient_eq _ (hd.of_significant hkappa)

theorem divided_eq (a : Vec3 α) {k : α} (hk : nonzero k) :
    d.divided a k = pure (@HDiv.hDiv _ _ _ (@Vec3.instHDiv α (.dividing q)) a k) := by
  simp only [divided, hd.quotient_eq _ hk, pure_bind]
  rfl

theorem kickFraction_eq (thin h : α) :
    d.kickFraction thin h = pure (@DipoleFringe.kickFraction α (.dividing q) thin h) := by
  refine guarded_eq (fun hthin => ?_) fun _ => rfl
  rw [hd.quotient_eq _ (hd.of_pos hthin), pure_bind]
  rfl

/-! ### Geometry -/

theorem radius?_eq (g : BendGeometry α) :
    d.radius? g = pure (@BendGeometry.radius? α (.dividing q) g) := by
  refine guarded_eq (fun hbent => ?_) fun _ => rfl
  have hangle : Significant g.angle := (of_decide_eq_true hbent).1
  rw [hd.quotient_eq _ (hd.of_significant hangle), map_pure]
  rfl

theorem bendField_eq (g : BendGeometry α) (rigidity : α) :
    d.bendField g rigidity = pure (@BendGeometry.field α (.dividing q) g rigidity) := by
  rw [bendField, hd.orbitCurvature_eq, pure_bind]
  rfl

theorem correction_eq (g : BendGeometry α) (face : Face)
    (hface : nonzero (Scalar.cos (g.poleFace face))) :
    d.correction g face = pure (@BendGeometry.correction α (.dividing q) g face) := by
  rw [correction, hd.radius?_eq, pure_bind, @BendGeometry.correction.eq_def α (.dividing q)]
  cases @BendGeometry.radius? α (.dividing q) g with
  | none => rfl
  | some radius => exact hd.fringeCorrection_eq radius g.fringeIntegral g.halfGap hface

/-! ### Orbit frames -/

theorem locate_eq (frame : OrbitFrame α) (position : Vec3 α) :
    d.locate frame position = pure (@OrbitFrame.locate α (.dividing q) frame position) := by
  refine guarded_eq (fun _ => rfl) fun hbent => ?_
  have hcurvature : nonzero frame.curvature := hd.of_ne hbent
  simp only [hd.quotient_eq _ hcurvature, pure_bind]
  rfl

theorem ofLocal_eq (frame : OrbitFrame α) (state : State α) :
    d.ofLocal frame state = pure (@OrbitFrame.ofLocal α (.dividing q) frame state) := by
  rw [ofLocal, hd.locate_eq, pure_bind]
  rfl

theorem toLocal_eq (frame : OrbitFrame α) (c : OrbitCoords α) :
    d.toLocal frame c = pure (@OrbitFrame.toLocal α (.dividing q) frame c) := by
  refine guarded_eq (fun _ => rfl) fun hbent => ?_
  have hcurvature : nonzero frame.curvature := hd.of_ne hbent
  rw [hd.quotient_eq _ hcurvature, pure_bind]
  rfl

theorem ofSlopes_eq (point : OrbitPoint α) (xp yp momentum : α) :
    d.ofSlopes point xp yp momentum =
      pure (@OrbitCoords.ofSlopes α (.dividing q) point xp yp momentum) := by
  rw [ofSlopes, hd.quotient_eq _ (hd.slopes xp yp), pure_bind]
  rfl

/-! ### Motion and fields -/

theorem drift_comesTo (state : State α) (h : α) :
    ComesTo (d.drift state h) (@State.drift α (.dividing q) state h) (still state.momentum) :=
  (hd.direction_comesTo state.momentum).map fun direction =>
    State.mk (state.position + h • direction) state.momentum

theorem driftDerivative_comesTo (state : State α) :
    ComesTo (d.driftDerivative state) (@State.driftDerivative α (.dividing q) state) (still state.momentum) :=
  (hd.direction_comesTo state.momentum).map fun direction => State.mk direction 0

theorem force_comesTo (motion : Motion α) (momentum field : Vec3 α) :
    ComesTo (d.force motion momentum field) (@Motion.force α (.dividing q) motion momentum field)
      (still momentum) :=
  (hd.direction_comesTo momentum).map fun direction => motion.coupling • direction.cross field

theorem orbitGradient_eq (frame : OrbitFrame α) (gradient : α) (position : Vec3 α) :
    d.orbitGradient frame gradient position =
      pure (@FieldMap.orbitGradient α (.dividing q) frame gradient position) := by
  rw [orbitGradient, hd.locate_eq, pure_bind]
  rfl

theorem sector_eq (base gradient curvature : α) (position : Vec3 α) :
    d.sector base gradient (.ofCurvature curvature) position =
      pure (@FieldMap.sector α (.dividing q) base gradient curvature position) := by
  rw [sector, hd.locate_eq, pure_bind]
  rfl

theorem nextOrder_eq (multipole : Multipole α) (x y : α) (sum : Multipole.Sum α) (index : Fin 12) :
    d.nextOrder multipole x y sum index =
      pure (@Multipole.Sum.next α (.dividing q) multipole x y sum index) := by
  simp only [nextOrder, hd.quotient_eq _ (hd.ofNat_succ index.val), pure_bind]
  rfl

theorem multipole_eq (multipole : Multipole α) (position : Vec3 α) :
    d.multipole multipole position =
      pure (@Multipole.field α (.dividing q) multipole position) := by
  have hnext : d.nextOrder multipole position.x position.y = fun sum index =>
      pure (@Multipole.Sum.next α (.dividing q) multipole position.x position.y sum index) := by
    funext sum index
    exact hd.nextOrder_eq multipole position.x position.y sum index
  rw [Division.multipole, hnext, List.foldlM_pure, pure_bind]
  rfl

theorem skew_eq (order : Nat) (field : Vec3 α → Except DivisionByZero (Vec3 α)) :
    d.skew order field = pure (skewBy (@skewAngle α (.dividing q) order) field) := by
  have hdivisor : nonzero (2 * (Scalar.ofNat order + 1)) :=
    hd.mul (hd.ofNat_succ 1) (hd.ofNat_add_one order)
  rw [skew, hd.quotient_eq _ hdivisor, pure_bind]
  rfl

/-! ### Helices -/

theorem helix_comesTo (motion : Motion α) (state : State α) (field : Vec3 α) (h : α) :
    ComesTo (d.helix motion state field h) (@Motion.helix α (.dividing q) motion state field h)
      (still state.momentum) := by
  refine .guarded (fun hturn => ?_) fun _ => hd.drift_comesTo state h
  have hb := hd.of_significant hturn.1
  have hp := hd.of_ne hturn.2
  have hmoving := hd.not_still hturn.2
  simp only [hd.divided_eq _ hb, hd.divided_eq _ hp, hd.pathCurvature_eq _ _ hp, hd.chord_eq, pure_bind]
  exact (ComesTo.of_eq_pure rfl).congr (iff_of_false not_false hmoving)

theorem rotate_eq (motion : Motion α) (momentum field : Vec3 α) (h : α) :
    d.rotate motion momentum field h =
      pure (@Motion.rotate α (.dividing q) motion momentum field h) := by
  refine guarded_eq (fun hturn => ?_) fun _ => rfl
  have hb := hd.of_significant hturn.1
  have hp := hd.of_ne hturn.2
  simp only [hd.divided_eq _ hb, hd.divided_eq _ hp, hd.pathCurvature_eq _ _ hp, pure_bind]
  rfl

theorem dipole_eq (motion : Motion α) (strengths : Strengths α) (geometry : BendGeometry α)
    (rigidity : α) :
    d.dipole motion strengths geometry rigidity =
      pure (@Dipole.ofMagnet α (.dividing q) motion strengths geometry rigidity) := by
  rw [dipole, hd.bendField_eq, pure_bind, hd.orbitCurvature_eq, pure_bind]
  rfl

theorem gradientField_eq (dipole : Dipole α) (position : Vec3 α) :
    d.gradientField dipole position =
      pure (@Dipole.gradientField α (.dividing q) dipole position) := by
  exact guarded_eq (fun _ => hd.orbitGradient_eq dipole.frame dipole.gradient position) fun _ => rfl

/-- The second helix starts from a momentum that stands still exactly if the first one does. -/
theorem advance_comesTo (dipole : Dipole α) (state : State α) (h : α) :
    ComesTo (d.advance dipole state h) (@Dipole.advance α (.dividing q) dipole state h)
      (still state.momentum) := by
  refine .guarded (fun _ => ?_) fun _ => hd.helix_comesTo dipole.motion state dipole.fieldVector h
  refine (hd.helix_comesTo dipole.motion state dipole.fieldVector (0.5 * h)).bind_self ?_
  rw [hd.gradientField_eq, pure_bind, hd.rotate_eq, pure_bind]
  exact (hd.helix_comesTo dipole.motion _ dipole.fieldVector (0.5 * h)).congr
    ((hd.still_rotate _ _ _ _).trans (hd.still_helix _ _ _ _))

theorem still_advance (dipole : Dipole α) (state : State α) (h : α) :
    still (@Dipole.advance α (.dividing q) dipole state h).momentum ↔ still state.momentum := by
  unfold Dipole.advance
  split
  · exact (hd.still_helix _ _ _ _).trans ((hd.still_rotate _ _ _ _).trans (hd.still_helix _ _ _ _))
  · exact hd.still_helix _ _ _ _

theorem dipoleDerivative_comesTo (dipole : Dipole α) (state : State α) :
    ComesTo (d.dipoleDerivative dipole state) (@Dipole.derivative α (.dividing q) dipole state)
      (still state.momentum) := by
  rw [dipoleDerivative, hd.gradientField_eq, pure_bind]
  exact (hd.direction_comesTo state.momentum).bind_self
    ((hd.force_comesTo dipole.motion state.momentum _).map _)

theorem dipoleStep_comesTo (dipole : Dipole α) (state : State α) (h : α) :
    ComesTo (d.dipoleStep dipole state h) (@Dipole.step α (.dividing q) dipole state h)
      (still state.momentum) := by
  refine .guarded (fun _ => (hd.drift_comesTo state h).map Step.exact) fun _ => ?_
  have hmiddle := hd.advance_comesTo dipole state (0.5 * h)
  have hhalves := (hd.advance_comesTo dipole _ (0.5 * h)).congr (hd.still_advance dipole state (0.5 * h))
  exact hmiddle.bind_self (hhalves.bind_self ((hd.advance_comesTo dipole state h).map _))

/-! ### Edge kicks -/

theorem edge_eq (motion : Motion α) (strengths : Strengths α) (geometry : BendGeometry α) (face : Face)
    (rigidity : α) (context : Context α) (hface : nonzero (Scalar.cos (geometry.poleFace face))) :
    d.edge motion strengths geometry face rigidity context =
      pure (@DipoleFringe.ofMagnet α (.dividing q) motion strengths geometry face rigidity context) := by
  rw [edge, hd.dipole_eq, pure_bind, hd.correction_eq _ _ hface, pure_bind]
  rfl

theorem kicked_eq (edge : DipoleFringe α) (c : OrbitCoords α) {p : α} (fraction : α) (hp : nonzero p)
    (hps : nonzero c.ps) :
    d.kicked edge c p fraction =
      pure (@DipoleFringe.kicked α (.dividing q) edge c p fraction) := by
  simp only [kicked, hd.pathCurvature_eq _ _ hp, hd.quotient_eq _ hps, hd.ofSlopes_eq, pure_bind]
  rfl

theorem kick_eq (edge : DipoleFringe α) (state : State α) (h : α) :
    d.kick edge state h = pure (@DipoleFringe.kick α (.dividing q) edge state h) := by
  rw [kick, hd.ofLocal_eq, pure_bind]
  refine guarded_eq (fun _ => rfl) fun hforward => ?_
  obtain ⟨hp, hps⟩ := Bool.or_eq_false_iff.mp (eq_false_of_ne_true hforward)
  have hp := hd.of_ne (ne_true_of_eq_false hp)
  have hps := hd.of_not_nonpos (of_decide_eq_false hps)
  rw [hd.kickFraction_eq, pure_bind, hd.kicked_eq _ _ _ hp hps, pure_bind, hd.toLocal_eq, pure_bind]
  rfl

theorem edgeStep_comesTo (edge : DipoleFringe α) (state : State α) (h : α) :
    ComesTo (d.edgeStep edge state h) (@DipoleFringe.step α (.dividing q) edge state h)
      (still state.momentum) := by
  refine .guarded (fun _ => ?_) fun _ => (hd.drift_comesTo state h).map Step.exact
  rw [hd.kick_eq, pure_bind]
  exact (hd.dipoleStep_comesTo edge.body _ h).congr (hd.still_kick edge state h)

/-! ### Runge-Kutta steps -/

section

variable (motion : Motion α) {field : Vec3 α → Except DivisionByZero (Vec3 α)} {map : FieldMap α}
  (hfield : ∀ position, field position = pure (map position))

include hfield

theorem fieldDerivative_comesTo (state : State α) :
    ComesTo (d.fieldDerivative motion field state)
      (@RungeKutta.derivative α (.dividing q) ⟨motion, map⟩ state) (still state.momentum) := by
  simp only [fieldDerivative, hfield, pure_bind]
  exact (hd.direction_comesTo state.momentum).map fun direction =>
    State.mk direction (motion.coupling • direction.cross (map state.position))

theorem singleStep_comesTo (y k1 : State α) (h : α) :
    ComesTo (d.singleStep motion field y k1 h)
      (@RungeKutta.singleStep α (.dividing q) ⟨motion, map⟩ y k1 h)
      (∃ stage ∈ @RungeKutta.laterStages α (.dividing q) ⟨motion, map⟩ y k1 h, still stage.momentum) := by
  have hsix : nonzero (6 : α) := hd.ofNat_succ 5
  have hderivative := hd.fieldDerivative_comesTo motion hfield
  rw [singleStep, hd.quotient_eq _ hsix]
  refine ((hderivative _).bind ((hderivative _).bind ((hderivative _).map _))).congr ?_
  simp only [RungeKutta.laterStages, List.mem_cons, List.not_mem_nil, or_false, or_and_right, exists_or,
    exists_eq_left]

/-- A step stops at the first of its stages that stands still. -/
theorem rungeKuttaStep_comesTo (y dydx : State α) (h : α) :
    ComesTo (d.rungeKuttaStep motion field y dydx h)
      (@RungeKutta.step α (.dividing q) ⟨motion, map⟩ y dydx h)
      (∃ stage ∈ @RungeKutta.stepStages α (.dividing q) ⟨motion, map⟩ y dydx h, still stage.momentum) := by
  have hsingle := hd.singleStep_comesTo motion hfield
  have hderivative := hd.fieldDerivative_comesTo motion hfield
  rw [rungeKuttaStep, @RungeKutta.step.eq_def α (.dividing q), ← comparing_dividing]
  refine ((hsingle y dydx (0.5 * h)).bind ((hderivative _).bind
    ((hsingle _ _ (0.5 * h)).bind ((hsingle y dydx h).map (Step.comparing _))))).congr ?_
  simp only [RungeKutta.stepStages, List.mem_append, List.mem_cons, or_and_right, exists_or, exists_eq_left,
    or_assoc]

end

/-! ### Integrators -/

/-- A magnet has a field under watch exactly if it has one, and it is the same. -/
theorem field?_eq (magnet : Magnet α) :
    (d.field? magnet = none ∧ @Magnet.field? α (.dividing q) magnet = none) ∨
      ∃ field map, d.field? magnet = some (pure field) ∧
        @Magnet.field? α (.dividing q) magnet = some map ∧
          ∀ position, field position = pure (map position) := by
  obtain ⟨kind, rigidity, strengths, geometry, face⟩ := magnet
  cases kind with
  | muonSpoiler | rfCavity | rf | general => exact Or.inl ⟨rfl, rfl⟩
  | none | solenoid | quadrupole => exact Or.inr ⟨_, _, rfl, rfl, fun _ => rfl⟩
  | dipole | dipoleFringe =>
    refine Or.inr ⟨_, _, ?_, rfl, fun _ => rfl⟩
    simp only [field?, hd.bendField_eq, pure_bind]
    rfl
  | dipoleQuadrupole =>
    refine Or.inr ⟨_, _, ?_, rfl, hd.sector_eq _ _ _⟩
    simp only [field?, hd.bendField_eq, hd.orbitCurvature_eq, pure_bind]
    rfl
  | sextupole | octupole | decapole | multipole =>
    exact Or.inr ⟨_, _, rfl, rfl, hd.multipole_eq _⟩
  | skewQuadrupole =>
    exact Or.inr ⟨_, _, congrArg some (hd.skew_eq 1 _), rfl, skewBy_dividing q _ fun _ => rfl⟩
  | skewSextupole | skewOctupole | skewDecapole =>
    exact Or.inr ⟨_, _, congrArg some (hd.skew_eq _ _), rfl,
      skewBy_dividing q _ (hd.multipole_eq _)⟩

theorem driftCourse_executes : @Course.Executes α (.dividing q) d.driftCourse .drift still :=
  @Course.Executes.mk α (.dividing q) _ _ _ hd.driftDerivative_comesTo fun state _ h =>
    ((hd.drift_comesTo state h).map Step.exact).congr (still_start_iff state)

theorem dipoleCourse_executes (dipole : Dipole α) :
    @Course.Executes α (.dividing q) (d.dipoleCourse dipole) (.dipole dipole) still :=
  @Course.Executes.mk α (.dividing q) _ _ _ (hd.dipoleDerivative_comesTo dipole) fun state _ h =>
    (hd.dipoleStep_comesTo dipole state h).congr (still_start_iff state)

theorem edgeCourse_executes (edge : DipoleFringe α) :
    @Course.Executes α (.dividing q) (d.edgeCourse edge) (.dipoleFringe edge) still :=
  @Course.Executes.mk α (.dividing q) _ _ _ (hd.dipoleDerivative_comesTo edge.body) fun state _ h =>
    (hd.edgeStep_comesTo edge state h).congr (still_start_iff state)

theorem fieldCourse_executes (motion : Motion α) {field : Vec3 α → Except DivisionByZero (Vec3 α)}
    {map : FieldMap α} (hfield : ∀ position, field position = pure (map position)) :
    @Course.Executes α (.dividing q) (d.fieldCourse motion field) (.rungeKutta ⟨motion, map⟩) still :=
  @Course.Executes.mk α (.dividing q) _ _ _ (hd.fieldDerivative_comesTo motion hfield)
    (hd.rungeKuttaStep_comesTo motion hfield)

/-- The integrator of a magnet, built without a stop and run under watch. -/
theorem course_executes (magnet : Magnet α) (motion : Motion α) (context : Context α) {kind : IntegratorKind}
    (hkind : kind ≠ .dipoleQuadrupole)
    (hface : nonzero (Scalar.cos (magnet.geometry.poleFace magnet.face))) :
    ∃ course, d.course magnet motion context kind = pure course ∧
      Option.Rel (fun course i => @Course.Executes α (.dividing q) course i still) course
        (@Magnet.integratorOf α (.dividing q) magnet motion context kind).toOption := by
  cases kind with
  | drift => exact ⟨_, rfl, .some hd.driftCourse_executes⟩
  | dipole =>
    refine ⟨_, ?_, .some (hd.dipoleCourse_executes _)⟩
    rw [course, hd.dipole_eq, pure_bind]
  | dipoleQuadrupole => exact absurd rfl hkind
  | dipoleFringe =>
    refine ⟨_, ?_, .some (hd.edgeCourse_executes _)⟩
    rw [course, hd.edge_eq _ _ _ _ _ _ hface, pure_bind]
  | rungeKutta =>
    rw [course, @toOption_integratorOf_rungeKutta α (.dividing q)]
    rcases hd.field?_eq magnet with ⟨hnone, hnone'⟩ | ⟨field, map, hsome, hsome', hfield⟩
    · rw [hnone, hnone']
      exact ⟨_, rfl, .none⟩
    · rw [hsome, hsome']
      exact ⟨_, rfl, .some (hd.fieldCourse_executes motion hfield)⟩

end CarriesOut

/-! ## Divisions carried out plainly -/

/-- Divisions carried out by a function, whatever their divisor. -/
def plain (quotient : α → α → α) : Division (Except DivisionByZero) α where
  quotient a b := pure (quotient a b)
  reciprocal length := pure (quotient 1 length)

theorem plain_carriesOut (quotient : α → α → α) :
    (plain quotient).CarriesOut quotient (fun _ => True) fun _ => False where
  quotient_eq _ _ _ := rfl
  direction_comesTo _ := .of_eq_pure rfl
  of_significant _ := trivial
  of_ne _ := trivial
  of_pos _ := trivial
  of_not_nonpos _ := trivial
  mul _ _ := trivial
  slopes _ _ := trivial
  ofNat_succ _ := trivial
  ofNat_add_one _ := trivial
  not_still _ := not_false
  still_helix _ _ _ _ := Iff.rfl
  still_rotate _ _ _ _ := Iff.rfl
  still_kick _ _ _ := Iff.rfl

/-- With any function for the quotient, the formulas under watch are those of the library. -/
theorem course_plain (quotient : α → α → α) (magnet : Magnet α) (motion : Motion α) (context : Context α)
    {kind : IntegratorKind} (hkind : kind ≠ .dipoleQuadrupole) :
    (plain quotient).course magnet motion context kind =
      pure ((@Magnet.integratorOf α (.dividing quotient) magnet motion context kind).toOption.map
        (@Integrator.course α (.dividing quotient))) := by
  obtain ⟨course, hcourse, hexecutes⟩ :=
    (plain_carriesOut quotient).course_executes magnet motion context hkind trivial
  rw [hcourse]
  generalize (@Magnet.integratorOf α (.dividing quotient) magnet motion context kind).toOption = i at hexecutes ⊢
  cases hexecutes with
  | none => rfl
  | some hexecutes =>
    exact congrArg (pure ∘ some) (@Course.Executes.eq_course α (.dividing quotient) _ _ hexecutes)

end Division

end BeamTransport
