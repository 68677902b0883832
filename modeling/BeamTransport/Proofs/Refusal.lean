import BeamTransport.Proofs.Double
import BeamTransport.Proofs.Magnet

/-!
# Which magnets are refused

A magnet is refused for its rigidity, else for its geometry, else because its set gives it to Runge-Kutta and
it has no field map. `Magnet.Outcome` lists these ends with all that was found on the way to them, in any
arithmetic; `Magnet.refused_exactly_on_faults` reads the list off for doubles, where what is not finite can
be described.
-/

namespace BeamTransport

section anyArithmetic

variable {α : Type} [Scalar α]

/-- The geometries that no magnet has: a number that is not finite, a negative length, an angle over no
length. -/
def BendGeometry.IsImpossible (g : BendGeometry α) : Prop :=
  (∃ a ∈ g.numbers, Scalar.isFinite a = false) ∨ g.arcLength < 0 ∨
    (Scalar.resolution < Scalar.abs g.angle ∧ Scalar.abs g.arcLength ≤ Scalar.resolution)

instance (g : BendGeometry α) : Decidable g.IsImpossible := inferInstanceAs (Decidable (_ ∨ _))

namespace Magnet

def HasNoRigidity (magnet : Magnet α) : Prop :=
  Scalar.isFinite magnet.rigidity = false ∨ (magnet.rigidity == 0) = true

instance (magnet : Magnet α) : Decidable magnet.HasNoRigidity :=
  inferInstanceAs (Decidable (_ ∨ _))

/-- Runge-Kutta is to follow a field that nothing describes. -/
def LacksField (magnet : Magnet α) (set : IntegratorSet) : Prop :=
  set.integratorFor magnet.kind = .rungeKutta ∧
    (magnet.kind = .muonSpoiler ∨ magnet.kind = .rfCavity ∨ magnet.kind = .rf ∨
      magnet.kind = .general)

instance (magnet : Magnet α) (set : IntegratorSet) : Decidable (magnet.LacksField set) :=
  inferInstanceAs (Decidable (_ ∧ _))

/-- The ends of building a magnet, each with what the checks before it have found. -/
inductive Outcome (magnet : Magnet α) (set : IntegratorSet) :
    Except (ConfigError α) (Integrator α) → Prop
  | rigidity (hrigidity : magnet.HasNoRigidity) :
      Outcome magnet set (.error (.rigidity magnet.rigidity))
  | geometry {fault : GeometryFault α} (hrigidity : ¬ magnet.HasNoRigidity)
      (hfault : magnet.geometry.fault? = some fault) : Outcome magnet set (.error (.geometry fault))
  | field (hrigidity : ¬ magnet.HasNoRigidity) (hgeometry : magnet.geometry.fault? = none)
      (hfield : magnet.LacksField set) : Outcome magnet set (.error (.unsupportedField magnet.kind))
  | built {i : Integrator α} (hrigidity : ¬ magnet.HasNoRigidity)
      (hgeometry : magnet.geometry.fault? = none) (hfield : ¬ magnet.LacksField set)
      (hkind : i.kind = set.integratorFor magnet.kind) : Outcome magnet set (.ok i)

variable {magnet : Magnet α}

theorem field?_eq_none_iff : magnet.field? = none ↔
    magnet.kind = .muonSpoiler ∨ magnet.kind = .rfCavity ∨ magnet.kind = .rf ∨
      magnet.kind = .general := by
  rw [field?]
  cases magnet.kind <;> simp

theorem hasNoRigidity_iff : magnet.HasNoRigidity ↔
    (!Scalar.isFinite magnet.rigidity || magnet.rigidity == 0) = true := by
  rw [Bool.or_eq_true, Bool.not_eq_true', HasNoRigidity]

theorem check_of_hasNoRigidity (hrigidity : magnet.HasNoRigidity) :
    magnet.check = .error (.rigidity magnet.rigidity) := if_pos (hasNoRigidity_iff.mp hrigidity)

theorem check_of_rigidity (hrigidity : ¬ magnet.HasNoRigidity) :
    magnet.check = match magnet.geometry.fault? with
      | some fault => .error (.geometry fault)
      | none => .ok () := if_neg (mt hasNoRigidity_iff.mpr hrigidity)

theorem outcome_integrator (magnet : Magnet α) (set : IntegratorSet) (motion : Motion α)
    (context : Context α) : magnet.Outcome set (magnet.integrator set motion context) := by
  by_cases hrigidity : magnet.HasNoRigidity
  · rw [integrator_of_fault set motion context (check_of_hasNoRigidity hrigidity)]
    exact .rigidity hrigidity
  have hcheck := check_of_rigidity hrigidity
  cases hgeometry : magnet.geometry.fault? with
  | some fault =>
    rw [hgeometry] at hcheck
    rw [integrator_of_fault set motion context hcheck]
    exact .geometry hrigidity hgeometry
  | none =>
    rw [hgeometry] at hcheck
    rcases exists_integrator_or set motion context hcheck with ⟨i, hi⟩ | ⟨hkind, hnone, herror⟩
    · rw [hi]
      rw [integrator_of_check set motion context hcheck] at hi
      obtain ⟨hkind, hfield⟩ := kind_of_integratorOf hi
      exact .built hrigidity hgeometry
        (fun hlacks => hfield hlacks.1 (field?_eq_none_iff.mpr hlacks.2)) hkind
    · rw [herror]
      exact .field hrigidity hgeometry ⟨hkind, field?_eq_none_iff.mp hnone⟩

end Magnet

end anyArithmetic

/-- The faults of a description in doubles. The two ways to say that a length is not significant differ for
what is not a number only, and that is a fault already. -/
theorem BendGeometry.isImpossible_iff {g : BendGeometry Float} :
    g.IsImpossible ↔ ∃ fault, g.fault? = some fault := by
  rw [IsImpossible, exists_fault?_iff]
  by_cases hnumber : ∃ a ∈ g.numbers, Scalar.isFinite a = false
  · exact iff_of_true (Or.inl hnumber) (Or.inl hnumber)
  have hlength : g.arcLength.isFinite = true := by
    rw [← Bool.not_eq_false]
    intro hinfinite
    exact hnumber ⟨g.arcLength, List.mem_cons_self, hinfinite⟩
  rw [Double.not_significant_iff hlength, Significant]

namespace Magnet

/-- Building fails exactly on the faults of the magnet, the first of them is the one reported, and tracking
fails where building does. -/
theorem refused_exactly_on_faults (magnet : Magnet Float) (set : IntegratorSet)
    (context : Context Float) :
    (∀ motion,
      (magnet.integrator set motion context = .error (.rigidity magnet.rigidity) ↔
        magnet.HasNoRigidity) ∧
      (¬ magnet.HasNoRigidity →
        ((∃ fault, magnet.integrator set motion context = .error (.geometry fault)) ↔
          magnet.geometry.IsImpossible)) ∧
      (¬ magnet.HasNoRigidity → ¬ magnet.geometry.IsImpossible →
        (magnet.integrator set motion context = .error (.unsupportedField magnet.kind) ↔
          magnet.LacksField set)) ∧
      (¬ magnet.HasNoRigidity → ¬ magnet.geometry.IsImpossible → ¬ magnet.LacksField set →
        ∃ i, magnet.integrator set motion context = .ok i ∧
          i.kind = set.integratorFor magnet.kind)) ∧
    ∀ (species : Species Float) (start : ParticleCoords Float) (steps : ℕ),
      (∀ error, magnet.track set species start steps context = .error error ↔
        magnet.integrator set ⟨species.charge⟩ context = .error error) ∧
      ((∃ i, magnet.integrator set ⟨species.charge⟩ context = .ok i) →
        ∃ coords, magnet.track set species start steps context = .ok coords ∧
          coords.length = steps) := by
  refine ⟨fun motion => ?_, fun species start steps => ?_⟩
  · rw [BendGeometry.isImpossible_iff]
    have hresult := magnet.outcome_integrator set motion context
    -- Each end keeps what rules out the other three, so all four statements can be read off any one of them.
    generalize magnet.integrator set motion context = result at hresult ⊢
    cases hresult with
    | rigidity hrigidity => simp [hrigidity]
    | geometry hrigidity hfault => simp [hrigidity, hfault]
    | field hrigidity hgeometry hfield => simp [hrigidity, hgeometry, hfield]
    | built hrigidity hgeometry hfield hkind => simp [hrigidity, hgeometry, hfield, hkind]
  · cases hresult : magnet.integrator set ⟨species.charge⟩ context with
    | error fault =>
      rw [track_of_fault hresult]
      simp
    | ok i =>
      rw [track_of_integrator hresult]
      simp

/-- A cavity that turns by half a radian, with a rigidity of minus zero over an infinite length, over the
longest length that counts as none, over a metre in a set that gives it to Runge-Kutta, and in one that lets
it drift. -/
theorem refused_exactly_on_faults_cavity :
    let cavity (rigidity length : Float) : Magnet Float :=
      ⟨.rfCavity, rigidity, .empty, .sector length 0.5, .entrance⟩
    let drifts : IntegratorSet := ⟨.geant4, fun _ => .drift⟩
    let start : ParticleCoords Float :=
      { position := 0, direction := ⟨0, 0, 1⟩, t := 0, s := 0, totalEnergy := 2, weight := 1 }
    (cavity (-0.0) Double.infinity).integrator Profile.geant4.set ⟨1⟩ .standard =
        .error (.rigidity (-0.0)) ∧
      (∃ fault, (cavity 2 Scalar.resolution).integrator Profile.geant4.set ⟨1⟩ .standard =
        .error (.geometry fault)) ∧
      (cavity 2 1).integrator Profile.geant4.set ⟨1⟩ .standard =
        .error (.unsupportedField .rfCavity) ∧
      (∃ i, (cavity 2 1).integrator drifts ⟨1⟩ .standard = .ok i ∧ i.kind = .drift) ∧
      ∃ coords, (cavity 2 1).track drifts .proton start 3 .standard = .ok coords ∧
        coords.length = 3 := by
  intro cavity drifts start
  have hrigidity : ¬ (cavity 2 1).HasNoRigidity := by decide +kernel
  have hgeometry : ¬ (cavity 2 1).geometry.IsImpossible := by decide +kernel
  have hfield : ¬ (cavity 2 1).LacksField drifts := by decide +kernel
  refine ⟨?_, ?_, ?_, ?_, ?_⟩
  · obtain ⟨hends, -⟩ :=
      refused_exactly_on_faults (cavity (-0.0) Double.infinity) Profile.geant4.set .standard
    exact (hends ⟨1⟩).1.mpr (by decide +kernel)
  · obtain ⟨hends, -⟩ :=
      refused_exactly_on_faults (cavity 2 Scalar.resolution) Profile.geant4.set .standard
    exact ((hends ⟨1⟩).2.1 (by decide +kernel)).mpr (by decide +kernel)
  · obtain ⟨hends, -⟩ := refused_exactly_on_faults (cavity 2 1) Profile.geant4.set .standard
    exact ((hends ⟨1⟩).2.2.1 hrigidity hgeometry).mpr (by decide +kernel)
  · obtain ⟨hends, -⟩ := refused_exactly_on_faults (cavity 2 1) drifts .standard
    exact (hends ⟨1⟩).2.2.2 hrigidity hgeometry hfield
  · obtain ⟨hends, htrack⟩ := refused_exactly_on_faults (cavity 2 1) drifts .standard
    obtain ⟨i, hi, -⟩ := (hends ⟨Species.proton.charge⟩).2.2.2 hrigidity hgeometry hfield
    exact (htrack .proton start 3).2 ⟨i, hi⟩

end Magnet

end BeamTransport
