import BeamTransport.Proofs.Paraxial

/-!
# Acceptance is monotone

The radius of curvature of a path is a real number or infinite, and a particle is accepted by a bound on its
forward share of momentum and one on its radius (`DipoleQuadrupole.isParaxial_iff`). The radius grows with the
momentum and falls with the offset from the orbit (`DipoleQuadrupole.extendedRadius_mono`), and lower limits
or a strict comparison ask for less (`Context.Eases`). So a particle that is no slower and no farther off is
accepted too, and what is accepted under a context is accepted under one that eases it
(`DipoleQuadrupole.paraxial_decision_monotone`).
-/

namespace BeamTransport

/-! ## Radii with infinity -/

/-- Whether a radius, which may be infinite, keeps a limit. -/
def Comparison.Keeps : Comparison → WithTop ℝ → ℝ → Prop
  | .strict, radius, limit => limit ≤ radius
  | .inclusive, radius, limit => limit < radius

/-- A radius among the reals with infinity, which stands for no radius at all. -/
def withInfinity : Option ℝ → WithTop ℝ
  | some radius => radius
  | none => ⊤

namespace Comparison

theorem violated_eq_false_iff (comparison : Comparison) (radius : Option ℝ) (limit : ℝ) :
    comparison.violated radius limit = false ↔ comparison.Keeps (withInfinity radius) limit := by
  cases radius with
  | none =>
    have hfinite : (limit : WithTop ℝ) < ⊤ := WithTop.coe_lt_top limit
    rw [violated_none]
    cases comparison with
    | strict => exact iff_of_true rfl hfinite.le
    | inclusive => exact iff_of_true rfl hfinite
  | some radius =>
    cases comparison with
    | strict => simp [violated, Keeps, withInfinity]
    | inclusive => simp [violated, Keeps, withInfinity]

/-- A limit that is kept is kept by any larger radius, and any lower limit is kept as well, under the same
comparison or a strict one. -/
theorem Keeps.mono {comparison eased : Comparison} {radius larger : WithTop ℝ} {limit lower : ℝ}
    (hkeeps : comparison.Keeps radius limit) (hcomparison : eased = comparison ∨ eased = .strict)
    (hradius : radius ≤ larger) (hlimit : lower ≤ limit) : eased.Keeps larger lower := by
  have hlower : (lower : WithTop ℝ) ≤ limit := WithTop.coe_le_coe.mpr hlimit
  rcases hcomparison with rfl | rfl
  · cases eased with
    | strict => exact (hlower.trans hkeeps).trans hradius
    | inclusive => exact (hlower.trans_lt hkeeps).trans_le hradius
  · cases comparison with
    | strict => exact (hlower.trans hkeeps).trans hradius
    | inclusive => exact (hlower.trans (le_of_lt hkeeps)).trans hradius

end Comparison

/-! ## Momentum and offset -/

namespace OrbitCoords

variable {c : OrbitCoords ℝ}

theorem momentum_of_squares {p : ℝ} (hp : 0 ≤ p)
    (hsquares : c.px * c.px + c.py * c.py + c.ps * c.ps = p * p) : c.momentum = p := by
  rw [momentum, hsquares, Scalar.sqrt_real, Real.sqrt_mul_self hp]

theorem amplitude_of_squares {r : ℝ} (hr : 0 ≤ r) (hsquares : c.x ^ 2 + c.y ^ 2 = r ^ 2) :
    c.amplitude = r := by
  rw [amplitude, Scalar.hypot_real, hsquares, Real.sqrt_sq hr]

end OrbitCoords

/-! ## Contexts that ask for less -/

/-- The real contexts without fault. -/
theorem Context.fault?_eq_none_iff {context : Context ℝ} :
    context.fault? = none ↔ 0 ≤ context.minimumRadius ∧ 0 < context.criterion.margin := by
  rw [fault?]
  by_cases hradius : context.minimumRadius < 0
  · simp [hradius]
  by_cases hmargin : context.criterion.margin ≤ 0
  · simp [hradius, hmargin]
  · simp [hradius, hmargin, not_lt.mp hradius, not_le.mp hmargin]

/-- A context eases another one when no setting of it asks for more: the share of forward momentum and the
comparison, and among contexts without fault the smallest radius and the margin on it. -/
structure Context.Eases (eased context : Context ℝ) : Prop where
  forwardCosine : eased.criterion.forwardCosine ≤ context.criterion.forwardCosine
  comparison : eased.criterion.comparison = context.criterion.comparison ∨
    eased.criterion.comparison = .strict
  radius : (eased.minimumRadius = context.minimumRadius ∧
      eased.criterion.margin = context.criterion.margin) ∨
    (eased.fault? = none ∧ context.fault? = none ∧ eased.minimumRadius ≤ context.minimumRadius ∧
      eased.criterion.margin ≤ context.criterion.margin)

/-- The limit on the radius is lowered with its two factors, since neither of them is negative. -/
theorem Context.Eases.limit_le {eased context : Context ℝ} (heases : eased.Eases context) :
    eased.minimumRadius * eased.criterion.margin ≤
      context.minimumRadius * context.criterion.margin := by
  rcases heases.radius with ⟨hradius, hmargin⟩ | ⟨heased, hcontext, hradius, hmargin⟩
  · rw [hradius, hmargin]
  · obtain ⟨-, hmargin0⟩ := fault?_eq_none_iff.mp heased
    obtain ⟨hradius0, -⟩ := fault?_eq_none_iff.mp hcontext
    exact mul_le_mul hradius hmargin hmargin0.le hradius0

namespace DipoleQuadrupole

variable (q : DipoleQuadrupole ℝ) {a b : OrbitCoords ℝ}

/-- Momentum turned along the path, at the offset of a particle, by the bending field and the gradient. -/
noncomputable def bendingAt (c : OrbitCoords ℝ) : ℝ :=
  |q.motion.coupling| * (|q.field| + |q.gradient| * c.amplitude)

/-- Radius of curvature of a path, infinite where nothing bends it. -/
noncomputable def extendedRadius (c : OrbitCoords ℝ) : WithTop ℝ :=
  if 0 < q.bendingAt c then ((c.momentum / q.bendingAt c : ℝ) : WithTop ℝ) else ⊤

theorem extendedRadius_eq (c : OrbitCoords ℝ) :
    withInfinity (q.radiusOfCurvature c) = q.extendedRadius c := by
  have hradius : q.radiusOfCurvature c =
      if 0 < q.bendingAt c then some (c.momentum / q.bendingAt c) else none := rfl
  rw [hradius, extendedRadius]
  split_ifs with hbending
  · rfl
  · rfl

theorem bendingAt_mono (hamplitude : b.amplitude ≤ a.amplitude) : q.bendingAt b ≤ q.bendingAt a := by
  unfold bendingAt
  gcongr

/-- A particle that is no slower and no farther off is bent no more tightly. -/
theorem extendedRadius_mono (hmomentum : a.momentum ≤ b.momentum)
    (hamplitude : b.amplitude ≤ a.amplitude) : q.extendedRadius a ≤ q.extendedRadius b := by
  have hbending := q.bendingAt_mono hamplitude
  rw [extendedRadius, extendedRadius]
  by_cases hbent : 0 < q.bendingAt b
  · rw [if_pos hbent, if_pos (hbent.trans_le hbending)]
    have hnonneg : 0 ≤ b.momentum := Real.sqrt_nonneg _
    exact WithTop.coe_le_coe.mpr (div_le_div₀ hnonneg hmomentum hbent hbending)
  · rw [if_neg hbent]
    exact le_top

/-- What is asked of an accepted particle. -/
theorem isParaxial_iff (c : OrbitCoords ℝ) :
    q.isParaxial c = true ↔ q.criterion.forwardCosine ≤ c.forwardCosine ∧
      q.criterion.comparison.Keeps (q.extendedRadius c) (q.minimumRadius * q.criterion.margin) := by
  rw [isParaxial, ParaxialCriterion.accepts_iff, Comparison.violated_eq_false_iff, extendedRadius_eq]

/-- Acceptance is a bound on the forward share of momentum and one on the radius of curvature, which is
infinite where nothing bends the path. With a particle it accepts any other of the same share that has no
less momentum and no larger offset; and what is accepted under a context is accepted under every context
that eases it. -/
theorem paraxial_decision_monotone :
    (∀ (q : DipoleQuadrupole ℝ) (c : OrbitCoords ℝ), q.isParaxial c = true ↔
      q.criterion.forwardCosine ≤ c.forwardCosine ∧
        q.criterion.comparison.Keeps (q.extendedRadius c) (q.minimumRadius * q.criterion.margin)) ∧
    (∀ (q : DipoleQuadrupole ℝ) (a b : OrbitCoords ℝ), b.forwardCosine = a.forwardCosine →
      a.momentum ≤ b.momentum → b.amplitude ≤ a.amplitude →
      q.isParaxial a = true → q.isParaxial b = true) ∧
    ∀ (motion : Motion ℝ) (strengths : Strengths ℝ) (g : BendGeometry ℝ) (rigidity : ℝ)
      (context eased : Context ℝ), eased.Eases context → ∀ c : OrbitCoords ℝ,
      (ofMagnet motion strengths g rigidity context).isParaxial c = true →
        (ofMagnet motion strengths g rigidity eased).isParaxial c = true := by
  refine ⟨isParaxial_iff, ?_, ?_⟩
  · intro q a b hcosine hmomentum hamplitude haccepted
    obtain ⟨hforward, hkeeps⟩ := (q.isParaxial_iff a).mp haccepted
    refine (q.isParaxial_iff b).mpr ⟨hcosine ▸ hforward, ?_⟩
    exact hkeeps.mono (Or.inl rfl) (q.extendedRadius_mono hmomentum hamplitude) le_rfl
  · intro motion strengths g rigidity context eased heases c haccepted
    obtain ⟨hforward, hkeeps⟩ := (isParaxial_iff _ c).mp haccepted
    refine (isParaxial_iff _ c).mpr ⟨heases.forwardCosine.trans hforward, ?_⟩
    -- The settings of a context decide neither the field nor the radius.
    have hsame : (ofMagnet motion strengths g rigidity eased).extendedRadius c =
        (ofMagnet motion strengths g rigidity context).extendedRadius c := rfl
    rw [hsame]
    exact hkeeps.mono heases.comparison le_rfl heases.limit_le

/-- In a quadrupole under a doubled and inclusive limit on the radius, a particle off the axis takes a faster
one on the axis with it, and is accepted under half the smallest radius, held strictly, without any limit on
its direction; a particle farther off is refused. -/
theorem paraxial_decision_monotone_quadrupole :
    let context : Context ℝ := ⟨3, ⟨0.5, 2, .inclusive⟩, .fixed 1⟩
    let eased : Context ℝ := ⟨1.5, ⟨-1, 2, .strict⟩, .fixed 1⟩
    let q (context : Context ℝ) : DipoleQuadrupole ℝ :=
      .ofMagnet ⟨1⟩ (Strengths.empty.set .k1 1) (.sector 1 0) 1 context
    let a : OrbitCoords ℝ := { x := 3, y := 4, s := 0, px := 6, py := 0, ps := 8 }
    let b : OrbitCoords ℝ := { x := 0, y := 0, s := 2, px := 0, py := -12, ps := 16 }
    let far : OrbitCoords ℝ := { x := 30, y := 40, s := 0, px := 6, py := 0, ps := 8 }
    b.forwardCosine = a.forwardCosine ∧ a.momentum ≤ b.momentum ∧ b.amplitude ≤ a.amplitude ∧
      eased.Eases context ∧ (q context).isParaxial a = true ∧ (q context).isParaxial b = true ∧
      (q eased).isParaxial a = true ∧ (q context).isParaxial far = false := by
  intro context eased q a b far
  have ha : a.momentum = 10 ∧ a.amplitude = 5 :=
    ⟨OrbitCoords.momentum_of_squares (by norm_num) (by norm_num [a]),
      OrbitCoords.amplitude_of_squares (by norm_num) (by norm_num [a])⟩
  have hb : b.momentum = 20 ∧ b.amplitude = 0 :=
    ⟨OrbitCoords.momentum_of_squares (by norm_num) (by norm_num [b]),
      OrbitCoords.amplitude_of_squares le_rfl (by norm_num [b])⟩
  have hfar : far.momentum = 10 ∧ far.amplitude = 50 :=
    ⟨OrbitCoords.momentum_of_squares (by norm_num) (by norm_num [far]),
      OrbitCoords.amplitude_of_squares (by norm_num) (by norm_num [far])⟩
  have hfield : (q context).field = 0 :=
    (ofMagnet_of_straight ⟨1⟩ (Strengths.empty.set .k1 1) (g := .sector 1 0)
      (by simp [BendGeometry.isBent, BendGeometry.sector, not_significant_zero]) 1 context).2
  have hgradient : (q context).gradient = 1 := by
    norm_num [q, ofMagnet, Strengths.get_set]
  have hbending (c : OrbitCoords ℝ) : (q context).bendingAt c = 0.299792458 * c.amplitude := by
    have hcoupling : (q context).motion.coupling = 0.299792458 := mul_one _
    rw [bendingAt, hfield, hgradient, hcoupling]
    norm_num
  have hcosine : b.forwardCosine = a.forwardCosine := by
    rw [OrbitCoords.forwardCosine, OrbitCoords.forwardCosine, ha.1, hb.1]
    norm_num [a, b]
  have hslower : a.momentum ≤ b.momentum := by
    rw [ha.1, hb.1]
    norm_num
  have hcloser : b.amplitude ≤ a.amplitude := by
    rw [ha.2, hb.2]
    norm_num
  have heases : eased.Eases context :=
    { forwardCosine := by norm_num [eased, context]
      comparison := Or.inr rfl
      radius := Or.inr ⟨Context.fault?_eq_none_iff.mpr (by norm_num [eased]),
        Context.fault?_eq_none_iff.mpr (by norm_num [context]), by norm_num [eased, context],
        by norm_num [eased, context]⟩ }
  obtain ⟨hdecision, hparticles, hcontexts⟩ := paraxial_decision_monotone
  have haccepted : (q context).isParaxial a = true := by
    refine (hdecision (q context) a).mpr ⟨?_, ?_⟩
    · rw [OrbitCoords.forwardCosine, ha.1]
      norm_num [q, ofMagnet, context, a]
    · rw [extendedRadius, hbending, ha.1, ha.2, if_pos (by norm_num)]
      exact WithTop.coe_lt_coe.mpr (by norm_num [q, ofMagnet, context])
  have hrefused : (q context).isParaxial far = false := by
    rw [Bool.eq_false_iff, ne_eq, hdecision]
    rintro ⟨-, hkeeps⟩
    rw [extendedRadius, hbending, hfar.1, hfar.2, if_pos (by norm_num)] at hkeeps
    have hlimit : (6 : ℝ) < 10 / (0.299792458 * 50) := by
      have hkept : (3 * 2 : ℝ) < 10 / (0.299792458 * 50) := WithTop.coe_lt_coe.mp hkeeps
      linarith
    norm_num at hlimit
  exact ⟨hcosine, hslower, hcloser, heases, haccepted,
    hparticles (q context) a b hcosine hslower hcloser haccepted,
    hcontexts _ _ _ _ context eased heases a haccepted, hrefused⟩

end DipoleQuadrupole

end BeamTransport
