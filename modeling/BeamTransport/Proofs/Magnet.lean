import BeamTransport.Proofs.Geometry
import BeamTransport.Tracking

/-!
# Which magnets are built, and into what

A description over the reals has a fault only in its rigidity, its length or its angle
(`Magnet.check_eq_ok_iff`). Without a fault it is built, in any arithmetic, unless its set gives it to
Runge-Kutta and it has no field map (`Magnet.exists_integrator_or`); what is built tracks
(`Magnet.track_of_integrator`); and over the reals it is one of the five algorithms with the data of the
magnet (`Magnet.Built`).
-/

namespace BeamTransport.Magnet

section anyArithmetic

variable {α : Type} [Scalar α] {magnet : Magnet α} (set : IntegratorSet) (motion : Motion α)
  (context : Context α)

theorem integrator_of_check (hcheck : magnet.check = .ok ()) :
    magnet.integrator set motion context =
      magnet.integratorOf motion context (set.integratorFor magnet.kind) := by
  rw [integrator, hcheck]
  rfl

theorem integrator_of_fault {error : ConfigError α} (hcheck : magnet.check = .error error) :
    magnet.integrator set motion context = .error error := by
  rw [integrator, hcheck]
  rfl

/-- A magnet without fault is built, unless its set gives it to Runge-Kutta and it has no field. -/
theorem exists_integrator_or (hcheck : magnet.check = .ok ()) :
    (∃ i, magnet.integrator set motion context = .ok i) ∨
      set.integratorFor magnet.kind = .rungeKutta ∧ magnet.field? = none ∧
        magnet.integrator set motion context = .error (.unsupportedField magnet.kind) := by
  rw [integrator_of_check set motion context hcheck]
  cases set.integratorFor magnet.kind with
  | drift | dipole | dipoleQuadrupole | dipoleFringe => exact Or.inl ⟨_, rfl⟩
  | rungeKutta =>
    rw [integratorOf, field]
    cases magnet.field? with
    | none => exact Or.inr ⟨rfl, rfl, rfl⟩
    | some map => exact Or.inl ⟨_, rfl⟩

theorem exists_integrator (hcheck : magnet.check = .ok ()) (hfield : magnet.field? ≠ none) :
    ∃ i, magnet.integrator set motion context = .ok i := by
  rcases exists_integrator_or set motion context hcheck with hi | ⟨-, hnone, -⟩
  · exact hi
  · exact absurd hnone hfield

variable {set motion context}

theorem rungeKutta_of_integratorOf {i : Integrator α}
    (hi : magnet.integratorOf motion context .rungeKutta = .ok i) :
    ∃ map, magnet.field? = some map ∧ i = .rungeKutta ⟨motion, map⟩ := by
  rw [integratorOf, field] at hi
  cases hfield : magnet.field? with
  | none =>
    rw [hfield] at hi
    exact nomatch hi
  | some map =>
    rw [hfield] at hi
    exact ⟨map, rfl, (Except.ok.inj hi).symm⟩

/-- The integrator of an algorithm is of its kind, and Runge-Kutta has a field to follow. -/
theorem kind_of_integratorOf {kind : IntegratorKind} {i : Integrator α}
    (hi : magnet.integratorOf motion context kind = .ok i) :
    i.kind = kind ∧ (kind = .rungeKutta → magnet.field? ≠ none) := by
  cases kind with
  | drift | dipole | dipoleQuadrupole | dipoleFringe =>
    refine ⟨?_, fun hkind => nomatch hkind⟩
    rw [← Except.ok.inj hi]
    rfl
  | rungeKutta =>
    obtain ⟨map, hfield, rfl⟩ := rungeKutta_of_integratorOf hi
    exact ⟨rfl, fun _ => hfield ▸ Option.some_ne_none map⟩

variable {species : Species α}

/-- A magnet that is built gives the coordinates of the records of its integrator. -/
theorem track_of_integrator {i : Integrator α}
    (hi : magnet.integrator set ⟨species.charge⟩ context = .ok i) (start : ParticleCoords α) (n : ℕ) :
    magnet.track set species start n context =
      .ok ((i.track (start.toState species) (magnet.trackedLength context) n).map fun record =>
        .ofState record.state (start.s + record.s) (timeAt species start record.s) species
          start.weight) := by
  rw [track, hi]
  rfl

theorem track_of_fault {error : ConfigError α}
    (hi : magnet.integrator set ⟨species.charge⟩ context = .error error) (start : ParticleCoords α)
    (n : ℕ) : magnet.track set species start n context = .error error := by
  rw [track, hi]
  rfl

end anyArithmetic

variable {magnet : Magnet ℝ} {set : IntegratorSet} {motion : Motion ℝ} {context : Context ℝ}

/-- The real descriptions without fault: some rigidity, no negative length, no angle without length. -/
theorem check_eq_ok_iff : magnet.check = .ok () ↔
    magnet.rigidity ≠ 0 ∧ 0 ≤ magnet.geometry.arcLength ∧
      (Significant magnet.geometry.angle → Significant magnet.geometry.arcLength) := by
  rw [← BendGeometry.fault?_eq_none_iff, check]
  by_cases hrigidity : magnet.rigidity = 0
  · simp [hrigidity]
  · cases magnet.geometry.fault? with
    | none => simp [hrigidity]
    | some fault => simp [hrigidity]

theorem isBent_iff_of_check (hcheck : magnet.check = .ok ()) :
    magnet.geometry.isBent = true ↔ Significant magnet.geometry.angle :=
  BendGeometry.isBent_iff.trans (and_iff_left_of_imp (check_eq_ok_iff.mp hcheck).2.2)

/-! ## What a magnet is built into -/

/-- An integrator with the data of a magnet. -/
inductive Built (magnet : Magnet ℝ) (motion : Motion ℝ) (context : Context ℝ) : Integrator ℝ → Prop
  | drift : Built magnet motion context .drift
  | dipole : Built magnet motion context
      (.dipole (.ofMagnet motion magnet.strengths magnet.geometry magnet.rigidity))
  | dipoleQuadrupole : Built magnet motion context
      (.dipoleQuadrupole
        (.ofMagnet motion magnet.strengths magnet.geometry magnet.rigidity context))
  | dipoleFringe : Built magnet motion context
      (.dipoleFringe
        (.ofMagnet motion magnet.strengths magnet.geometry magnet.face magnet.rigidity context))
  | rungeKutta {field : FieldMap ℝ} (hfield : magnet.field? = some field) :
      Built magnet motion context (.rungeKutta ⟨motion, field⟩)

theorem built_of_integratorOf {kind : IntegratorKind} {i : Integrator ℝ}
    (hi : magnet.integratorOf motion context kind = .ok i) : magnet.Built motion context i := by
  cases kind with
  | drift => exact Except.ok.inj hi ▸ .drift
  | dipole => exact Except.ok.inj hi ▸ .dipole
  | dipoleQuadrupole => exact Except.ok.inj hi ▸ .dipoleQuadrupole
  | dipoleFringe => exact Except.ok.inj hi ▸ .dipoleFringe
  | rungeKutta =>
    obtain ⟨map, hfield, rfl⟩ := rungeKutta_of_integratorOf hi
    exact .rungeKutta hfield

theorem built_of_integrator (hcheck : magnet.check = .ok ()) {i : Integrator ℝ}
    (hi : magnet.integrator set motion context = .ok i) : magnet.Built motion context i := by
  rw [integrator_of_check set motion context hcheck] at hi
  exact built_of_integratorOf hi

end BeamTransport.Magnet
