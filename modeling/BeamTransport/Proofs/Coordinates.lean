import BeamTransport.Proofs.Particle

/-!
# Coordinates of particles and their states

A state holds the momentum of a particle, its coordinates a direction and an energy. From a state to
coordinates nothing is lost (`ParticleCoords.toState_ofState`); from coordinates to a state the length of the
direction is, and below the rest mass the energy and the direction are
(`ParticleCoords.coordinates_and_states_convert`).
-/

namespace BeamTransport

namespace Species

variable {species : Species ℝ} {energy p : ℝ}

/-- The momentum of the energy that belongs to a momentum is that momentum, whatever the mass. -/
theorem momentum_totalEnergy (hp : 0 ≤ p) : species.momentum (species.totalEnergy p) = p := by
  have hnonneg : 0 ≤ p * p + species.mass * species.mass :=
    add_nonneg (mul_self_nonneg p) (mul_self_nonneg species.mass)
  have hsquare : species.totalEnergy p * species.totalEnergy p =
      p * p + species.mass * species.mass := Real.mul_self_sqrt hnonneg
  rw [momentum, hsquare, add_sub_cancel_right, Scalar.max_real, max_eq_left (mul_self_nonneg p)]
  exact Real.sqrt_mul_self hp

/-- There is no momentum up to the rest mass. -/
theorem momentum_of_rest (henergy : 0 ≤ energy) (hrest : energy ≤ species.mass) :
    species.momentum energy = 0 := by
  have hsquares : energy * energy - species.mass * species.mass ≤ 0 :=
    sub_nonpos.mpr (mul_self_le_mul_self henergy hrest)
  rw [momentum, Scalar.max_real, max_eq_right hsquares]
  exact Real.sqrt_zero

/-- A particle at rest has the energy of its mass. -/
theorem totalEnergy_zero (hmass : 0 ≤ species.mass) : species.totalEnergy 0 = species.mass := by
  rw [totalEnergy, mul_zero, zero_add]
  exact Real.sqrt_mul_self hmass

end Species

namespace ParticleCoords

variable {species : Species ℝ} {c : ParticleCoords ℝ}

theorem toState_ofState (y : State ℝ) (s t weight : ℝ) :
    (ofState y s t species weight).toState species = y := by
  refine State.ext rfl ?_
  change species.momentum (species.totalEnergy y.momentum.length) •
    y.momentum.direction.direction = y.momentum
  rw [Species.momentum_totalEnergy y.momentum.length_nonneg]
  by_cases hrest : y.momentum = 0
  · rw [hrest, Vec3.length_zero, zero_smul]
  · rw [Vec3.direction_of_unit (Vec3.length_direction hrest), Vec3.length_smul_direction]

/-- Above the rest mass only the length of a direction is lost. -/
theorem ofState_toState (hmass : 0 ≤ species.mass) (henergy : species.mass < c.totalEnergy)
    (hdirection : c.direction ≠ 0) :
    ofState (c.toState species) c.s c.t species c.weight =
      { c with direction := c.direction.direction } := by
  have hunit : c.direction.direction.dot c.direction.direction = 1 := by
    rw [← Vec3.length_mul_self, Vec3.length_direction hdirection, mul_one]
  refine ParticleCoords.ext rfl ?_ rfl rfl ?_ rfl
  · exact Vec3.direction_smul hunit (Species.momentum_pos hmass henergy)
  · change species.totalEnergy (c.toState species).momentum.length = c.totalEnergy
    rw [length_toState_momentum species hdirection, Species.totalEnergy_momentum hmass henergy.le]

theorem toState_of_rest (henergy : 0 ≤ c.totalEnergy) (hrest : c.totalEnergy ≤ species.mass) :
    c.toState species = ⟨c.position, 0⟩ := by
  rw [toState, Species.momentum_of_rest henergy hrest, zero_smul]

/-- A state becomes coordinates and the same state again. Coordinates above the rest mass become a state and
the same coordinates again, with their direction scaled to a unit one if it is none; up to the rest mass they
become a state without momentum, and come back with the energy of the mass and without direction. -/
theorem coordinates_and_states_convert (species : Species ℝ) (hmass : 0 ≤ species.mass) :
    (∀ (y : State ℝ) (s t weight : ℝ), (ofState y s t species weight).toState species = y) ∧
    (∀ c : ParticleCoords ℝ, c.direction.length = 1 → species.mass < c.totalEnergy →
      ofState (c.toState species) c.s c.t species c.weight = c) ∧
    (∀ c : ParticleCoords ℝ, c.direction ≠ 0 → species.mass < c.totalEnergy →
      ofState (c.toState species) c.s c.t species c.weight =
        { c with direction := c.direction / c.direction.length }) ∧
    ∀ c : ParticleCoords ℝ, 0 ≤ c.totalEnergy → c.totalEnergy ≤ species.mass →
      c.toState species = ⟨c.position, 0⟩ ∧
        ofState (c.toState species) c.s c.t species c.weight =
          { c with direction := 0, totalEnergy := species.mass } := by
  refine ⟨toState_ofState, ?_, ?_, ?_⟩
  · intro c hunit henergy
    have hdirection : c.direction ≠ 0 := by
      rw [← Vec3.length_pos_iff, hunit]
      exact one_pos
    rw [ofState_toState hmass henergy hdirection, Vec3.direction_of_unit hunit]
  · intro c hdirection henergy
    rw [ofState_toState hmass henergy hdirection, Vec3.direction_of_ne_zero hdirection]
  · intro c henergy hrest
    have hstate := toState_of_rest henergy hrest
    refine ⟨hstate, ?_⟩
    rw [hstate, ofState, Vec3.direction_zero, Vec3.length_zero, Species.totalEnergy_zero hmass]

/-- A state at rest, a particle with a direction of length ten, one with a unit direction and one between rest
and nothing. -/
theorem coordinates_and_states_convert_heavy :
    let species : Species ℝ := ⟨"", 3, -2⟩
    let c : ParticleCoords ℝ := ⟨⟨⟨1, -2, 3⟩, ⟨0, 6, -8⟩, 7⟩, 11, 5, 6⟩
    let unit : ParticleCoords ℝ := { c with direction := ⟨0, 0.6, -0.8⟩ }
    let slow : ParticleCoords ℝ := { c with totalEnergy := 2 }
    0 ≤ species.mass ∧
      (ofState ⟨⟨1, 2, 3⟩, 0⟩ 4 5 species 6).toState species = ⟨⟨1, 2, 3⟩, 0⟩ ∧
      unit.direction.length = 1 ∧ c.direction ≠ 0 ∧ species.mass < c.totalEnergy ∧
      ofState (unit.toState species) 11 7 species 6 = unit ∧
      ofState (c.toState species) 11 7 species 6 = { c with direction := c.direction / c.direction.length } ∧
      slow.totalEnergy ≤ species.mass ∧
      ofState (slow.toState species) 11 7 species 6 = { c with direction := 0, totalEnergy := 3 } := by
  intro species c unit slow
  have hmass : 0 ≤ species.mass := by norm_num [species]
  have henergy : species.mass < c.totalEnergy := by norm_num [species, c]
  have hunit : unit.direction.length = 1 :=
    Vec3.length_of_dot_self zero_le_one (by norm_num [unit, Vec3.dot])
  have hdirection : c.direction ≠ 0 := fun hzero => by
    have hy : (6 : ℝ) = 0 := congrArg Vec3.y hzero
    norm_num at hy
  have hslow : slow.totalEnergy ≤ species.mass := by norm_num [species, slow]
  obtain ⟨hstate, hcoords, hscaled, hrest⟩ := coordinates_and_states_convert species hmass
  exact ⟨hmass, hstate _ 4 5 6, hunit, hdirection, henergy, hcoords unit hunit henergy,
    hscaled c hdirection henergy, hslow, (hrest slow (by norm_num [slow]) hslow).2⟩

end ParticleCoords

end BeamTransport
