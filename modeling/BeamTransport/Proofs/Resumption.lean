import BeamTransport.Proofs.Tracking

/-!
# Runs that are cut and resumed

A run carries three things from step to step: the state, the path covered and the records so far. Its steps
may be taken in two parts, the second one from where the first one ends (`Integrator.records_add`), and a run
that starts farther along gives the same records farther along (`Integrator.records_farther`). A cut that
leaves the length of the steps as it was can therefore not be seen in the records
(`Integrator.run_cut_and_resumed`).
-/

namespace BeamTransport

/-- A record that is taken farther along by a path. -/
def Record.farther (path : ℝ) (record : Record ℝ) : Record ℝ := { record with s := path + record.s }

namespace Integrator

variable (i : Integrator ℝ) (h : ℝ)

/-- The records do not depend on the path that was covered before, but for being farther along. -/
theorem records_farther (n : ℕ) (state : State ℝ) (path s : ℝ) :
    i.records h n state (path + s) = (i.records h n state s).map (Record.farther path) := by
  induction n generalizing state s with
  | zero => rfl
  | succ n ih =>
    rw [records, records, List.map_cons, add_assoc, ih]
    rfl

/-- The records of some steps, and those of further steps from the state and the path reached. -/
theorem records_add (m n : ℕ) (state : State ℝ) (s : ℝ) :
    i.records h (m + n) state s =
      i.records h m state s ++ i.records h n (i.after h state m) (s + m * h) := by
  induction m generalizing state s with
  | zero =>
    rw [Nat.zero_add, Nat.cast_zero, zero_mul, add_zero]
    rfl
  | succ m ih =>
    have hpath : s + h + m * h = s + (m + 1 : ℕ) * h := by
      push_cast
      ring
    rw [Nat.succ_add, records, ih, after_step, hpath]
    rfl

/-- Two parts in steps of one length are together covered in steps of that length. -/
theorem stepLength_add {first second : ℝ} {m n : ℕ} (hm : 0 < m) (hn : 0 < n)
    (hsteps : first / m = second / n) : (first + second) / (m + n : ℕ) = first / m := by
  have hm0 : (m : ℝ) ≠ 0 := Nat.cast_ne_zero.mpr hm.ne'
  have hn0 : (n : ℝ) ≠ 0 := Nat.cast_ne_zero.mpr hn.ne'
  have hsum : ((m + n : ℕ) : ℝ) ≠ 0 := Nat.cast_ne_zero.mpr (by omega)
  have hcross : first * n = second * m := (div_eq_div_iff hm0 hn0).mp hsteps
  rw [div_eq_div_iff hsum hm0]
  push_cast
  linear_combination -hcross

/-- A run in some number of steps has that many records, one for each step: the state it leads to, the path
covered so far and the largest error it estimates. A run over two lengths, both in steps of one length, gives
the records of the run over the first one, followed by those of a run over the second one that is resumed
from the last state, with the first length added to their path. -/
theorem run_cut_and_resumed (i : Integrator ℝ) :
    (∀ (initial : State ℝ) (length : ℝ) (n : ℕ),
      (i.track initial length n).length = n ∧
        ∀ k < n, (i.track initial length n)[k]? =
          some ⟨i.after (length / n) initial (k + 1), (k + 1) * length / n,
            (i.step (i.after (length / n) initial k) (length / n)).maxError⟩) ∧
    ∀ (initial : State ℝ) (first second : ℝ) (m n : ℕ), 0 < m → 0 < n → first / m = second / n →
      ∃ last, (i.track initial first m).getLast? = some last ∧
        i.track initial (first + second) (m + n) =
          i.track initial first m ++
            (i.track last.state second n).map fun record => { record with s := first + record.s } := by
  refine ⟨?_, ?_⟩
  · intro initial length n
    exact ⟨i.length_track initial length n, i.getElem?_track initial length n⟩
  · intro initial first second m n hm hn hsteps
    refine ⟨_, i.getLast?_track initial first hm, ?_⟩
    have hpath : 0 + m * (first / m) = first + 0 := by
      rw [mul_div_cancel₀ first (Nat.cast_ne_zero.mpr hm.ne'), zero_add, add_zero]
    have hshared := stepLength_add hm hn hsteps
    simp only [track, Scalar.ofNat_real]
    rw [hshared, records_add, hpath, records_farther, hsteps]
    rfl

/-- Five steps through a slanting field, cut after three of them, and the fourth record. -/
theorem run_cut_and_resumed_slanting :
    let i : Integrator ℝ := .rungeKutta ⟨⟨-2⟩, .uniform ⟨1, 2, 3⟩⟩
    let initial : State ℝ := ⟨⟨1, -2, 3⟩, ⟨0, 3, -4⟩⟩
    (6 : ℝ) / (3 : ℕ) = 4 / (2 : ℕ) ∧ (i.track initial (6 + 4) (3 + 2)).length = 5 ∧
      (i.track initial (6 + 4) (3 + 2))[3]?.map (·.s) = some 8 ∧
      ∃ last, (i.track initial 6 3).getLast? = some last ∧
        i.track initial (6 + 4) (3 + 2) = i.track initial 6 3 ++
          (i.track last.state 4 2).map fun record => { record with s := 6 + record.s } := by
  intro i initial
  have hsteps : (6 : ℝ) / (3 : ℕ) = 4 / (2 : ℕ) := by norm_num
  obtain ⟨hrecords, hcut⟩ := run_cut_and_resumed i
  obtain ⟨hlength, hget⟩ := hrecords initial (6 + 4) (3 + 2)
  refine ⟨hsteps, hlength, ?_, hcut initial 6 4 3 2 (by norm_num) (by norm_num) hsteps⟩
  rw [hget 3 (by norm_num), Option.map_some]
  norm_num

end Integrator

end BeamTransport
