import Mathlib.Tactic

/-! # Machines that count

A deterministic machine with a counter. A step of a working machine raises the counter, or it keeps the
counter and lowers a rank; above a limit every step lowers the rank.

* **`Counts.exists_stop`** — such a machine stops.
* **`Counts.counter_lt`** — between two states of one rank the counter goes up. -/

variable {σ : Type*}

/-- A machine that counts up to a limit, as long as an invariant holds. -/
structure Counts (step : σ → σ) (working inv : σ → Prop) (counter : σ → ℤ) (rank : σ → ℕ) (limit : ℤ) :
    Prop where
  keeps : ∀ s, inv s → inv (step s)
  stops : ∀ s, ¬ working s → step s = s
  advances : ∀ s, inv s → working s →
    counter s < counter (step s) ∨ counter (step s) = counter s ∧ rank (step s) < rank s
  lowers : ∀ s, inv s → working s → limit < counter s → rank (step s) < rank s

namespace Counts

variable {step : σ → σ} {working inv : σ → Prop} {counter : σ → ℤ} {rank : σ → ℕ} {limit : ℤ}

/-- The invariant holds along a run. -/
theorem inv_iterate (h : Counts step working inv counter rank limit) {s : σ} (hs : inv s) (k : ℕ) :
    inv (step^[k] s) := by
  induction k with
  | zero => exact hs
  | succ k ih =>
    rw [Function.iterate_succ_apply']
    exact h.keeps _ ih

/-- A machine that has stopped stays. -/
theorem iterate_of_not_working (h : Counts step working inv counter rank limit) {s : σ}
    (hs : ¬ working s) (k : ℕ) : step^[k] s = s := by
  induction k with
  | zero => rfl
  | succ k ih => rw [Function.iterate_succ_apply', ih, h.stops s hs]

/-- What is left of the limit goes down, or it stays and the rank goes down. -/
theorem lex_step (h : Counts step working inv counter rank limit) {s : σ} (hs : inv s)
    (hw : working s) :
    Prod.Lex (· < ·) (· < ·) ((limit + 1 - counter (step s)).toNat, rank (step s))
      ((limit + 1 - counter s).toNat, rank s) := by
  rcases h.advances s hs hw with hup | ⟨hsame, hrank⟩
  · by_cases hlimit : limit < counter s
    · -- above the limit nothing is left
      have hnow : (limit + 1 - counter s).toNat = 0 := by omega
      have hnext : (limit + 1 - counter (step s)).toNat = 0 := by omega
      rw [hnow, hnext]
      exact .right _ (h.lowers s hs hw hlimit)
    · exact .left _ _ (by omega)
  · rw [hsame]
    exact .right _ hrank

/-- **A machine that counts stops.** -/
theorem exists_stop (h : Counts step working inv counter rank limit) {s : σ} (hs : inv s) :
    ∃ k, ¬ working (step^[k] s) := by
  have hwf : WellFounded (Prod.Lex (fun a b : ℕ => a < b) (fun a b : ℕ => a < b)) :=
    (Prod.lex ⟨_, Nat.lt_wfRel.wf⟩ ⟨_, Nat.lt_wfRel.wf⟩).wf
  generalize hp : ((limit + 1 - counter s).toNat, rank s) = p
  induction p using hwf.induction generalizing s with
  | _ p ih =>
    by_cases hw : working s
    · have hlex := h.lex_step hs hw
      rw [hp] at hlex
      obtain ⟨k, hk⟩ := ih _ hlex (h.keeps s hs) rfl
      exact ⟨k + 1, hk⟩
    · exact ⟨0, hw⟩

/-- A run that is still at work has been so all the time. -/
theorem working_of_le (h : Counts step working inv counter rank limit) {s : σ} {j k : ℕ} (hjk : j ≤ k)
    (hw : working (step^[k] s)) : working (step^[j] s) := by
  by_contra hstop
  obtain ⟨d, rfl⟩ := Nat.exists_eq_add_of_le' hjk
  rw [Function.iterate_add_apply, h.iterate_of_not_working hstop] at hw
  exact hstop hw

/-- Along a run the counter goes up, or it stays and the rank goes down. -/
theorem counter_lt_or (h : Counts step working inv counter rank limit) {s : σ} (hs : inv s) {j k : ℕ}
    (hjk : j < k) (hw : working (step^[k] s)) :
    counter (step^[j] s) < counter (step^[k] s) ∨
      counter (step^[k] s) = counter (step^[j] s) ∧ rank (step^[k] s) < rank (step^[j] s) := by
  induction k with
  | zero => exact absurd hjk (Nat.not_lt_zero j)
  | succ k ih =>
    have hwk : working (step^[k] s) := h.working_of_le (Nat.le_succ k) hw
    have hnext := h.advances _ (h.inv_iterate hs k) hwk
    rw [Function.iterate_succ_apply']
    rcases Nat.lt_succ_iff_lt_or_eq.mp hjk with hlt | rfl
    · have hprev := ih hlt hwk
      omega
    · exact hnext

/-- **Between two states of one rank** the counter goes up. -/
theorem counter_lt (h : Counts step working inv counter rank limit) {s : σ} (hs : inv s) {j k : ℕ}
    (hjk : j < k) (hw : working (step^[k] s)) (hrank : rank (step^[j] s) ≤ rank (step^[k] s)) :
    counter (step^[j] s) < counter (step^[k] s) := by
  rcases h.counter_lt_or hs hjk hw with hlt | ⟨-, hlower⟩
  · exact hlt
  · exact absurd hrank (Nat.not_le.mpr hlower)

end Counts
