import BeamTransport.Proofs.DipoleFringe
import BeamTransport.Proofs.FollowedField
import BeamTransport.Proofs.Tracking

/-!
# The shares of an edge kick

An edge is tracked over one thin length, and each step gives the share of the kick that its length is
of the thin length. So a run is the succession of the steps by its shares (`states_track_shares`). Over
a positive thin length these add up to one kick, in any number of steps; without one every step gives a
whole kick, so a run gives as many as it has steps (`Magnet.kick_shares_sum`).
-/

namespace BeamTransport

namespace DipoleFringe

/-! ## The share of a step -/

section share

variable {thin : ℝ}

theorem kickFraction_eq_min (hthin : 0 < thin) (h : ℝ) : kickFraction thin h = min (h / thin) 1 := by
  rw [kickFraction, if_pos hthin, Scalar.min_real]

theorem kickFraction_of_not_pos (hthin : ¬ 0 < thin) (h : ℝ) : kickFraction thin h = 1 :=
  if_neg hthin

theorem kickFraction_part (hthin : 0 < thin) {n : ℕ} (hn : 0 < n) :
    kickFraction thin (thin / n) = 1 / n := by
  have hn1 : (1 : ℝ) ≤ n := Nat.one_le_cast.mpr hn
  have hpart : thin / n / thin = 1 / n := by
    field_simp
  -- A part is no longer than the whole, so its share is not cut off.
  rw [kickFraction_eq_min hthin, hpart, min_eq_left]
  exact (div_le_one (by linarith)).mpr hn1

end share

variable (edge : DipoleFringe ℝ)

/-- A share of the kick, whatever the thin length. -/
noncomputable def kickBy (state : State ℝ) (share : ℝ) : State ℝ :=
  let c := edge.body.frame.ofLocal state
  if state.momentum.length == 0 || c.ps ≤ 0 then state
  else ⟨state.position, (edge.body.frame.toLocal (edge.kicked c state.momentum.length share)).momentum⟩

/-- A step that gives a share of the kick, whatever the thin length. -/
noncomputable def stepBy (state : State ℝ) (share h : ℝ) : Step ℝ :=
  if Significant edge.body.field then edge.body.step (edge.kickBy state share) h
  else .exact (state.drift h)

theorem kick_eq_kickBy (state : State ℝ) (h : ℝ) :
    edge.kick state h = edge.kickBy state (kickFraction edge.thin.value h) := by
  rw [kick, kickM, kickBy]
  split_ifs <;> rfl

theorem step_eq_stepBy (state : State ℝ) (h : ℝ) :
    edge.step state h = edge.stepBy state (kickFraction edge.thin.value h) h := by
  rw [stepBy]
  split_ifs with hfield
  · rw [edge.step_of_significant state h hfield, kick_eq_kickBy]
  · exact edge.step_of_not_significant state h hfield

/-! ## The shares of a run -/

/-- The shares of the kick that the steps of a run over a path length give, in order. -/
noncomputable def kickShares (length : ℝ) (steps : ℕ) : List ℝ :=
  List.replicate steps (kickFraction edge.thin.value (length / Scalar.ofNat steps))

/-- Each step of a run is the step by its share. -/
theorem states_track_shares (initial : State ℝ) (length : ℝ) (steps : ℕ) :
    initial :: ((Integrator.dipoleFringe edge).track initial length steps).map (·.state) =
      (edge.kickShares length steps).scanl
        (fun y share => (edge.stepBy y share (length / steps)).out) initial := by
  rw [Integrator.track, kickShares, Scalar.ofNat_real]
  refine Integrator.states_records_scanl ?_ steps initial 0
  intro y
  exact congrArg Step.out (edge.step_eq_stepBy y _)

theorem sum_kickShares_thin {n : ℕ} (hn : 0 < n) :
    (edge.kickShares edge.thin.value n).sum = if 0 < edge.thin.value then 1 else (n : ℝ) := by
  have hn0 : (n : ℝ) ≠ 0 := Nat.cast_ne_zero.mpr hn.ne'
  rw [kickShares, List.sum_replicate, Scalar.ofNat_real, nsmul_eq_mul]
  split_ifs with hthin
  · rw [kickFraction_part hthin hn, mul_one_div_cancel hn0]
  · rw [kickFraction_of_not_pos hthin, mul_one]

end DipoleFringe

namespace Magnet

theorem trackedLength_of_edge {magnet : Magnet ℝ} (hkind : magnet.kind = .dipoleFringe)
    (context : Context ℝ) : magnet.trackedLength context = context.thin.value := by
  rw [trackedLength, trackedLengthM, hkind]
  rfl

/-- A run through an edge takes one step by each of its shares. These add up to one kick over a positive
thin length, and to one for each step over any other: so they add up to one exactly if the thin length
is positive or there is one step. -/
theorem kick_shares_sum (magnet : Magnet ℝ) (hkind : magnet.kind = .dipoleFringe)
    (hcheck : magnet.check = .ok ()) (set : IntegratorSet)
    (hset : set.integratorFor magnet.kind = .dipoleFringe) (motion : Motion ℝ) (context : Context ℝ)
    {n : ℕ} (hn : 0 < n) : ∃ edge,
    magnet.integrator set motion context = .ok (.dipoleFringe edge) ∧
      let length := magnet.trackedLength context
      let shares := edge.kickShares length n
      (∀ y, y :: ((Integrator.dipoleFringe edge).track y length n).map (·.state) =
          shares.scanl (fun y share => (edge.stepBy y share (length / n)).out) y) ∧
        shares.length = n ∧
        shares.sum = (if 0 < context.thin.value then 1 else (n : ℝ)) ∧
        (shares.sum = 1 ↔ 0 < context.thin.value ∨ n = 1) := by
  set edge := DipoleFringe.ofMagnet motion magnet.strengths magnet.geometry magnet.face magnet.rigidity
    context with hedge
  have hbuilt : magnet.integrator set motion context = .ok (.dipoleFringe edge) := by
    rw [integrator, hcheck, hset]
    rfl
  have hsum : (edge.kickShares (magnet.trackedLength context) n).sum =
      if 0 < context.thin.value then 1 else (n : ℝ) := by
    rw [trackedLength_of_edge hkind]
    exact edge.sum_kickShares_thin hn
  refine ⟨edge, hbuilt, ?_, List.length_replicate, hsum, ?_⟩
  · intro y
    exact edge.states_track_shares y _ n
  · rw [hsum]
    split_ifs with hthin
    · simp [hthin]
    · simp [hthin]

/-- A thin length that is asked for, in seven steps. -/
theorem kick_shares_sum_on_demand :
    let magnet : Magnet ℝ := ⟨.dipoleFringe, -3, .empty, ⟨2, -10, 1, 2, 1, 1⟩, .exit⟩
    let context : Context ℝ := ⟨0, .standard, .onDemand fun question => question + 2⟩
    magnet.check = .ok () ∧ Profile.bdsimMatrix.set.integratorFor magnet.kind = .dipoleFringe ∧ ∃ edge,
      magnet.integrator Profile.bdsimMatrix.set ⟨-1⟩ context = .ok (.dipoleFringe edge) ∧
        (edge.kickShares (magnet.trackedLength context) 7).sum = 1 := by
  intro magnet context
  have hcheck : magnet.check = .ok () := check_eq_ok_iff.mpr
    ⟨by norm_num [magnet], by norm_num [magnet],
      fun _ => significant_of_one_le (by norm_num [magnet])⟩
  have hthin : 0 < context.thin.value := by
    norm_num [context, ThinLength.value, ThinLength.onDemand]
  obtain ⟨edge, hbuilt, _, _, _, hone⟩ := kick_shares_sum magnet rfl hcheck Profile.bdsimMatrix.set rfl
    ⟨-1⟩ context (n := 7) (by norm_num)
  exact ⟨hcheck, rfl, edge, hbuilt, hone.mpr (Or.inl hthin)⟩

/-- Over a thin length of zero, which no context refuses, two steps give two kicks. -/
theorem two_kicks_without_thin_length :
    let magnet : Magnet ℝ := ⟨.dipoleFringe, 1, .empty, ⟨1, 1, 1, 0, 0, 0⟩, .entrance⟩
    let context : Context ℝ := { Context.standard with thin := .fixed 0 }
    context.fault?.isNone = true ∧ magnet.check = .ok () ∧ ∃ edge,
      magnet.integrator Profile.bdsimTwo.set ⟨1⟩ context = .ok (.dipoleFringe edge) ∧
        (edge.kickShares (magnet.trackedLength context) 2).sum = 2 := by
  intro magnet context
  have hone : Significant (1 : ℝ) := significant_of_one_le (by norm_num)
  have hfault : context.fault?.isNone = true := by
    norm_num [context, Context.fault?, Context.standard, ParaxialCriterion.standard]
  have hcheck : magnet.check = .ok () :=
    check_eq_ok_iff.mpr ⟨one_ne_zero, zero_le_one, fun _ => hone⟩
  set edge := DipoleFringe.ofMagnet ⟨1⟩ magnet.strengths magnet.geometry magnet.face magnet.rigidity
    context with hedge
  have hbuilt : magnet.integrator Profile.bdsimTwo.set ⟨1⟩ context = .ok (.dipoleFringe edge) := by
    rw [integrator, hcheck]
    rfl
  refine ⟨hfault, hcheck, edge, hbuilt, ?_⟩
  rw [trackedLength_of_edge rfl]
  have hthin : ¬ 0 < edge.thin.value := lt_irrefl (0 : ℝ)
  have hsum := edge.sum_kickShares_thin (n := 2) two_pos
  rw [if_neg hthin] at hsum
  exact_mod_cast hsum

end Magnet

end BeamTransport
