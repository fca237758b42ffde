import RdsJson.Lib.Outcome
import Mathlib.Data.List.Forall2

/-! # Machines, and programs that refine them

A machine answers every input and goes on. A program may fault; it refines a
machine if what it returns shows the machine's answer, step by step. -/
namespace RdsJson.Lib.Refinement
open RdsJson.Lib.Outcome

variable {σ σ' γ ι ο ο' ρ ε α : Type}

structure Machine (σ ι ο : Type) where
  step : σ → ι → ο × σ

/-- The answers to a list of inputs, and the state behind them. -/
def Machine.run (m : Machine σ ι ο) : σ → List ι → List ο × σ
  | s, [] => ([], s)
  | s, i :: is =>
    let (os, s') := m.run (m.step s i).2 is
    ((m.step s i).1 :: os, s')

/-- Steps that may fault; what a step returns holds the next state. -/
structure Program (γ ι ρ ε : Type) where
  step : γ → ι → Except ε ρ
  next : ρ → γ

def Program.run (prog : Program γ ι ρ ε) : γ → List ι → Except ε (List ρ × γ)
  | c, [] => .ok ([], c)
  | c, i :: is => do
    let r ← prog.step c i
    let (rs, c') ← prog.run (prog.next r) is
    .ok (r :: rs, c')

/-! ## Refinement -/

/-- The returns of a run from one state to another, each with the answer that it
shows in the state it was made in. -/
inductive Shown (next : ρ → γ) (Q : γ → ρ → ο → Prop) : γ → List ρ → List ο → γ → Prop
  | nil (c : γ) : Shown next Q c [] [] c
  | cons {c c' : γ} {r : ρ} {rs : List ρ} {o : ο} {os : List ο} (h : Q c r o)
      (hs : Shown next Q (next r) rs os c') : Shown next Q c (r :: rs) (o :: os) c'

/-- No step from related states faults; it shows the answer and relates the next
states. -/
def Refines (prog : Program γ ι ρ ε) (m : Machine σ ι ο) (R : γ → σ → Prop)
    (Q : γ → ρ → ο → Prop) : Prop :=
  ∀ c s i, R c s →
    ∃ r, prog.step c i = .ok r ∧ Q c r (m.step s i).1 ∧ R (prog.next r) (m.step s i).2

section
variable {prog : Program γ ι ρ ε} {m : Machine σ ι ο} {m' : Machine σ' ι ο'}
variable {R : γ → σ → Prop} {Q : γ → ρ → ο → Prop} {c c' : γ} {s : σ} {s' : σ'}

/-- What every step shows, a run shows. -/
theorem Refines.run (h : Refines prog m R Q) (hR : R c s) (is : List ι) :
    ∃ rs c', prog.run c is = .ok (rs, c') ∧ Shown prog.next Q c rs (m.run s is).1 c' ∧
      R c' (m.run s is).2 := by
  induction is generalizing c s with
  | nil => exact ⟨[], c, rfl, .nil c, hR⟩
  | cons i is ih =>
    obtain ⟨r, hstep, hQ, hR'⟩ := h c s i hR
    obtain ⟨rs, c', hrun, hshown, hend⟩ := ih hR'
    refine ⟨r :: rs, c', ?_, .cons hQ hshown, hend⟩
    rw [Program.run, hstep, ok_bind, hrun, ok_bind]

/-- What every step adds to a log, a run adds to it. -/
theorem Shown.log {next : ρ → γ} {log : γ → List α} {entries : ο → List α} {rs : List ρ}
    {os : List ο} (hlog : ∀ c r o, Q c r o → log (next r) = log c ++ entries o)
    (h : Shown next Q c rs os c') : log c' = log c ++ os.flatMap entries := by
  induction h with
  | nil c => simp
  | @cons c c' r rs o os hQ hs ih =>
    rw [ih, hlog c r o hQ, List.flatMap_cons, List.append_assoc]

/-- What every return tells, a run tells. -/
theorem Shown.map {next : ρ → γ} {told : ρ → α} {tell : ο → α} {rs : List ρ} {os : List ο}
    (htold : ∀ c r o, Q c r o → told r = tell o) (h : Shown next Q c rs os c') :
    rs.map told = os.map tell := by
  induction h with
  | nil c => rfl
  | @cons c c' r rs o os hQ hs ih => rw [List.map_cons, List.map_cons, htold c r o hQ, ih]

/-- Two machines on the same inputs keep step. -/
theorem Machine.run_lockstep {S : σ → σ' → Prop} {P : ο → ο' → Prop}
    (hstep : ∀ s s' i, S s s' → P (m.step s i).1 (m'.step s' i).1 ∧
      S (m.step s i).2 (m'.step s' i).2) (hS : S s s') (is : List ι) :
    List.Forall₂ P (m.run s is).1 (m'.run s' is).1 ∧ S (m.run s is).2 (m'.run s' is).2 := by
  induction is generalizing s s' with
  | nil => exact ⟨.nil, hS⟩
  | cons i is ih =>
    obtain ⟨hP, hS'⟩ := hstep s s' i hS
    obtain ⟨hPs, hend⟩ := ih hS'
    exact ⟨.cons hP hPs, hend⟩
end

end RdsJson.Lib.Refinement
