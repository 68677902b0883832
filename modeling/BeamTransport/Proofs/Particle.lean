import BeamTransport.Proofs.Magnet
import BeamTransport.Proofs.Momentum

/-!
# Particles through a magnet

Above the rest mass, energy and momentum determine each other (`Species.totalEnergy_momentum`), so a
particle whose momentum keeps its magnitude keeps its energy and its speed. Where the steps of a magnet
keep the magnitude of every momentum, the coordinates of a tracked particle show its energy and its weight
unchanged, and its path and its time growing by equal shares
(`Magnet.energy_path_time_weight_accounted`).
-/

namespace BeamTransport

theorem speedOfLight_pos : (0 : ℝ) < speedOfLight := by
  unfold speedOfLight
  norm_num

/-! ## Energy and momentum -/

namespace Species

variable {species : Species ℝ} {energy : ℝ}

theorem momentum_nonneg : 0 ≤ species.momentum energy := Real.sqrt_nonneg _

section aboveRest

variable (hmass : 0 ≤ species.mass) (henergy : species.mass ≤ energy)

include hmass henergy

theorem squares_sub_nonneg : 0 ≤ energy ^ 2 - species.mass ^ 2 :=
  sub_nonneg.mpr (pow_le_pow_left₀ hmass henergy 2)

theorem momentum_eq_sqrt : species.momentum energy = Real.sqrt (energy ^ 2 - species.mass ^ 2) := by
  rw [momentum, Scalar.max_real, ← sq, ← sq, max_eq_left (squares_sub_nonneg hmass henergy),
    Scalar.sqrt_real]

/-- The energy of the momentum that belongs to an energy is that energy. -/
theorem totalEnergy_momentum : species.totalEnergy (species.momentum energy) = energy := by
  have hsquares : species.momentum energy * species.momentum energy + species.mass * species.mass =
      energy * energy := by
    rw [momentum_eq_sqrt hmass henergy, Real.mul_self_sqrt (squares_sub_nonneg hmass henergy)]
    ring
  rw [totalEnergy, hsquares]
  exact Real.sqrt_mul_self (hmass.trans henergy)

end aboveRest

theorem momentum_pos (hmass : 0 ≤ species.mass) (henergy : species.mass < energy) :
    0 < species.momentum energy := by
  rw [momentum_eq_sqrt hmass henergy.le]
  exact Real.sqrt_pos.mpr (sub_pos.mpr (pow_lt_pow_left₀ henergy hmass two_ne_zero))

end Species

/-! ## Coordinates and states -/

theorem Vec3.length_direction {a : Vec3 ℝ} (ha : a ≠ 0) : a.direction.length = 1 := by
  refine length_of_dot_self zero_le_one ?_
  rw [direction_of_ne_zero ha, unit_div_length ha, mul_one]

/-- The state of a particle that has a direction has the momentum of its energy. -/
theorem ParticleCoords.length_toState_momentum (species : Species ℝ) {c : ParticleCoords ℝ}
    (hdirection : c.direction ≠ 0) :
    (c.toState species).momentum.length = species.momentum c.totalEnergy := by
  rw [toState, Vec3.length_smul, Vec3.length_direction hdirection, mul_one,
    abs_of_nonneg Species.momentum_nonneg]

namespace Magnet

/-! ## Time -/

section time

variable {species : Species ℝ} {start : ParticleCoords ℝ} (henergy : 0 < start.totalEnergy) (s : ℝ)

theorem timeAt_of_rest (hrest : species.momentum start.totalEnergy = 0) :
    timeAt species start s = start.t := by
  simp [timeAt, hrest]

include henergy in
/-- The time of a path is its length over the speed, a momentum over its energy in units of light. -/
theorem timeAt_of_moving (hmoving : 0 < species.momentum start.totalEnergy) :
    timeAt species start s = start.t
      + s * start.totalEnergy / (species.momentum start.totalEnergy * speedOfLight) := by
  have hlight := speedOfLight_pos
  have hspeed : 0 < species.momentum start.totalEnergy / start.totalEnergy * speedOfLight := by
    positivity
  rw [timeAt, if_pos hspeed]
  field_simp

end time

/-! ## Runs -/

variable {magnet : Magnet ℝ} {set : IntegratorSet} {species : Species ℝ} {context : Context ℝ}
  {i : Integrator ℝ}

/-- Where every step keeps the magnitude of the momentum, the coordinates after a number of steps are
those of a state with the momentum of the start, ahead by the path and the time of these steps. -/
theorem getElem?_track_coords (hi : magnet.integrator set ⟨species.charge⟩ context = .ok i)
    (hkeeps : ∀ y h, (i.step y h).out.momentum.length = y.momentum.length)
    {start : ParticleCoords ℝ} (hdirection : start.direction ≠ 0) (n : ℕ) :
    ∃ coords, magnet.track set species start n context = .ok coords ∧ coords.length = n ∧
      ∀ k < n, ∃ state : State ℝ,
        let s := (k + 1) * magnet.trackedLength context / n
        state.momentum.length = species.momentum start.totalEnergy ∧
          coords[k]? = some (.ofState state (start.s + s) (timeAt species start s) species
            start.weight) := by
  refine ⟨_, track_of_integrator hi start n, by rw [List.length_map, Integrator.length_track], ?_⟩
  intro k hk
  refine ⟨_, ?_, by rw [List.getElem?_map, i.getElem?_track _ _ n k hk]; rfl⟩
  exact Integrator.after_induction
    (P := fun y => y.momentum.length = species.momentum start.totalEnergy)
    (fun y hy => (hkeeps y _).trans hy) (ParticleCoords.length_toState_momentum species hdirection) _

/-- A particle that is tracked by an algorithm without matrix keeps its energy and its weight. Its path
grows by equal shares of the tracked length, its time by those of the time that its speed takes for it,
unless it is at rest and keeps its time; and a particle that moves has a unit direction. -/
theorem energy_path_time_weight_accounted (magnet : Magnet ℝ) (set : IntegratorSet)
    (species : Species ℝ) (start : ParticleCoords ℝ) (n : ℕ) (context : Context ℝ)
    (hmass : 0 < species.mass) (henergy : species.mass ≤ start.totalEnergy)
    (hdirection : start.direction ≠ 0) {i : Integrator ℝ}
    (hi : magnet.integrator set ⟨species.charge⟩ context = .ok i)
    (hkind : i.kind = .drift ∨ i.kind = .dipole ∨ i.kind = .dipoleFringe) :
    let p := Real.sqrt (start.totalEnergy ^ 2 - species.mass ^ 2)
    let length := magnet.trackedLength context
    ∃ coords, magnet.track set species start n context = .ok coords ∧ coords.length = n ∧
      ∀ k < n, ∃ c, coords[k]? = some c ∧
        c.totalEnergy = start.totalEnergy ∧ c.weight = start.weight ∧
        c.s = start.s + (k + 1) * length / n ∧
        (0 < p → c.direction.length = 1 ∧
          c.t = start.t + (k + 1) * length / n * start.totalEnergy / (p * speedOfLight)) ∧
        (p = 0 → c.t = start.t) := by
  intro p length
  have hp : species.momentum start.totalEnergy = p := Species.momentum_eq_sqrt hmass.le henergy
  have hkeeps (y : State ℝ) (h : ℝ) : (i.step y h).out.momentum.length = y.momentum.length := by
    refine i.length_stepWith y _ h ?_
    cases i <;> simp [Integrator.kind] at hkind <;> trivial
  obtain ⟨coords, htrack, hlength, hcoords⟩ := getElem?_track_coords hi hkeeps hdirection n
  refine ⟨coords, htrack, hlength, fun k hk => ?_⟩
  obtain ⟨state, hstate, hget⟩ := hcoords k hk
  refine ⟨_, hget, ?_, rfl, rfl, ?_, ?_⟩
  · rw [ParticleCoords.ofState, hstate]
    exact Species.totalEnergy_momentum hmass.le henergy
  · intro hmoving
    rw [← hp] at hmoving ⊢
    refine ⟨Vec3.length_direction ?_, timeAt_of_moving (hmass.trans_le henergy) _ hmoving⟩
    rw [← Vec3.length_pos_iff, hstate]
    exact hmoving
  · intro hrest
    exact timeAt_of_rest _ (hp.trans hrest)

/-- A particle of negative charge through an edge whose length is asked for, backwards in the magnet. -/
theorem energy_path_time_weight_accounted_edge :
    let magnet : Magnet ℝ :=
      ⟨.dipoleFringe, -3, Strengths.empty.set .k1 4, ⟨2, -10, 1, 2, 1, 1⟩, .exit⟩
    let context : Context ℝ := ⟨0, .standard, .onDemand fun question => question + 2⟩
    let species : Species ℝ := ⟨"", 3, -1⟩
    let start : ParticleCoords ℝ := ⟨⟨⟨1, -2, 3⟩, ⟨0, 3, -4⟩, 7⟩, 11, 5, 6⟩
    0 < species.mass ∧ species.mass ≤ start.totalEnergy ∧ start.direction ≠ 0 ∧
      (∃ i, magnet.integrator Profile.bdsimTwo.set ⟨species.charge⟩ context = .ok i ∧
        i.kind = .dipoleFringe) ∧
      ∃ coords, ∃ c : ParticleCoords ℝ,
        magnet.track Profile.bdsimTwo.set species start 4 context = .ok coords ∧
        coords.length = 4 ∧ coords[2]? = some c ∧ c.totalEnergy = 5 ∧ c.weight = 6 ∧
        c.direction.length = 1 ∧ c.s = 12.5 ∧ c.t = 7 + 1.5 * 5 / (4 * speedOfLight) := by
  intro magnet context species start
  have hcheck : magnet.check = .ok () := check_eq_ok_iff.mpr
    ⟨by norm_num [magnet], by norm_num [magnet],
      fun _ => significant_of_one_le (by norm_num [magnet])⟩
  have hi : magnet.integrator Profile.bdsimTwo.set ⟨species.charge⟩ context = .ok
      (.dipoleFringe (.ofMagnet ⟨species.charge⟩ magnet.strengths magnet.geometry magnet.face
        magnet.rigidity context)) :=
    integrator_of_check _ _ _ hcheck
  have hmass : 0 < species.mass := by norm_num [species]
  have henergy : species.mass ≤ start.totalEnergy := by norm_num [species, start]
  have hdirection : start.direction ≠ 0 := fun hzero => by
    have hy : (3 : ℝ) = 0 := congrArg Vec3.y hzero
    norm_num at hy
  have hp : Real.sqrt (start.totalEnergy ^ 2 - species.mass ^ 2) = 4 := by
    rw [Real.sqrt_eq_iff_mul_self_eq] <;> norm_num [start, species]
  have hthin : magnet.trackedLength context = 2 := by
    norm_num [magnet, context, trackedLength, trackedLengthM, ThinLength.value, ThinLength.onDemand]
  obtain ⟨coords, htrack, hlength, hcoords⟩ := energy_path_time_weight_accounted magnet
    Profile.bdsimTwo.set species start 4 context hmass henergy hdirection hi (Or.inr (Or.inr rfl))
  obtain ⟨c, hget, henergyKept, hweight, hs, hmoving, -⟩ := hcoords 2 (by norm_num)
  rw [hp, hthin] at hmoving
  rw [hthin] at hs
  obtain ⟨hunit, ht⟩ := hmoving (by norm_num)
  refine ⟨hmass, henergy, hdirection, ⟨_, hi, rfl⟩, coords, c, htrack, hlength, hget, henergyKept,
    hweight, hunit, ?_, ?_⟩
  · rw [hs]
    norm_num [start]
  · rw [ht]
    norm_num [start]

end Magnet

end BeamTransport
