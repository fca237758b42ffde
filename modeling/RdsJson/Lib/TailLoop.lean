import RdsJson.Lib.Outcome

/-! # Loops with a measure

A loop is a body that leaves with a result or goes round with a new state, and a
measure that every round makes smaller. Functions that call each other in tail
position are one loop over the function that runs next. `run` is total by the
measure and evaluates in the kernel; `run_eq` unrolls one turn, `run_yields` is
the invariant rule, and `turns_yields` the one for a loop that is total only where
an invariant holds. -/
namespace RdsJson.Lib.TailLoop
open RdsJson.Lib.Outcome

/-- One turn of a loop. -/
inductive Turn (σ ρ : Type) where
  | done (r : ρ)
  | again (s : σ)

/-- What a turn leads to: `Q` at the end, `I` before another turn. -/
def Turn.Leads {σ ρ : Type} (I : σ → Prop) (Q : ρ → Prop) : Turn σ ρ → Prop
  | .done r => Q r
  | .again s => I s

structure Loop (ε σ ρ : Type) where
  body : σ → Except ε (Turn σ ρ)
  measure : σ → Nat
  decreases : ∀ {s s'}, body s = .ok (.again s') → measure s' < measure s

variable {ε σ ρ : Type}

/-- At most `n` turns. -/
def turns (body : σ → Except ε (Turn σ ρ)) : Nat → σ → Option (Except ε ρ)
  | 0, _ => none
  | n + 1, s =>
    match body s with
    | .error e => some (.error e)
    | .ok (.done r) => some (.ok r)
    | .ok (.again s') => turns body n s'

/-- The rule for a loop with a variant: turns that keep `I` and make `rank`
smaller come to an end. -/
theorem turns_yields {body : σ → Except ε (Turn σ ρ)} {E : ε → Prop} {I : σ → Prop}
    {Q : ρ → Prop} {rank : σ → Nat}
    (hturn : ∀ s, I s → Yields E (body s) (Turn.Leads (fun s' => I s' ∧ rank s' < rank s) Q))
    (n : Nat) {s : σ} (hs : I s) (hn : rank s < n) :
    ∃ r, turns body n s = some r ∧ Yields E r Q := by
  induction n generalizing s with
  | zero => exact absurd hn (Nat.not_lt_zero _)
  | succ n ih =>
    have ht := hturn s hs
    unfold turns
    cases hb : body s with
    | error e =>
      rw [hb] at ht
      exact ⟨_, rfl, ht⟩
    | ok t =>
      rw [hb] at ht
      cases t with
      | done r => exact ⟨_, rfl, ht⟩
      | again s' =>
        obtain ⟨hs', hless⟩ := ht
        exact ih hs' (by omega)

theorem turns_isSome (L : Loop ε σ ρ) (n : Nat) (s : σ) (h : L.measure s < n) :
    (turns L.body n s).isSome = true := by
  have hturn : ∀ s, True → Yields (fun _ => True) (L.body s)
      (Turn.Leads (fun s' => True ∧ L.measure s' < L.measure s) fun _ => True) := by
    intro s _
    cases hb : L.body s with
    | error e => trivial
    | ok t =>
      cases t with
      | done r => trivial
      | again s' => exact ⟨trivial, L.decreases hb⟩
  obtain ⟨r, hr, -⟩ := turns_yields hturn n trivial h
  rw [hr]
  rfl

/-- More turns than a run needs change nothing. -/
theorem turns_mono {body : σ → Except ε (Turn σ ρ)} {n m : Nat} {s : σ} {r : Except ε ρ}
    (h : turns body n s = some r) (hm : n ≤ m) : turns body m s = some r := by
  induction n generalizing m s with
  | zero => cases h
  | succ n ih =>
    obtain ⟨k, rfl⟩ : ∃ k, m = k + 1 := ⟨m - 1, by omega⟩
    unfold turns at h ⊢
    split at h
    · exact h
    · exact h
    · exact ih h (by omega)

/-- A loop that goes round wherever it gets to never ends. -/
theorem turns_eq_none {body : σ → Except ε (Turn σ ρ)} {I : σ → Prop}
    (hturn : ∀ s, I s → ∃ s', body s = .ok (.again s') ∧ I s') (n : Nat) (s : σ) (hs : I s) :
    turns body n s = none := by
  induction n generalizing s with
  | zero => rfl
  | succ n ih =>
    obtain ⟨s', hb, hs'⟩ := hturn s hs
    rw [turns, hb]
    exact ih s' hs'

/-- The whole loop. -/
def Loop.run (L : Loop ε σ ρ) (s : σ) : Except ε ρ :=
  (turns L.body (L.measure s + 1) s).get (turns_isSome L _ s (Nat.lt_succ_self _))

theorem Loop.run_eq (L : Loop ε σ ρ) (s : σ) :
    L.run s = match L.body s with
      | .error e => .error e
      | .ok (.done r) => .ok r
      | .ok (.again s') => L.run s' := by
  have hs : turns L.body (L.measure s + 1) s = some (L.run s) := (Option.some_get _).symm
  unfold turns at hs
  split at hs
  · next hb => simp [← Option.some.inj hs]
  · next hb => simp [← Option.some.inj hs]
  · next s' hb =>
    have hs' : turns L.body (L.measure s' + 1) s' = some (L.run s') := (Option.some_get _).symm
    have hle := turns_mono hs' (L.decreases hb)
    rw [hs] at hle
    simpa using hle

theorem Loop.induct (L : Loop ε σ ρ) {P : σ → Prop}
    (h : ∀ s, (∀ s', L.body s = .ok (.again s') → P s') → P s) (s : σ) : P s := by
  induction hn : L.measure s using Nat.strongRecOn generalizing s with
  | _ n ih =>
    subst hn
    exact h s fun s' hb => ih _ (L.decreases hb) s' rfl

/-- What every turn keeps holds at the end, and what the last turn adds. -/
theorem Loop.run_yields (L : Loop ε σ ρ) {E : ε → Prop} {I : σ → Prop} {Q : ρ → Prop}
    (hturn : ∀ s, I s → Yields E (L.body s) (Turn.Leads I Q)) (s : σ) (hs : I s) :
    Yields E (L.run s) Q := by
  induction s using L.induct with
  | h s ih =>
    have ht := hturn s hs
    rw [L.run_eq]
    cases hb : L.body s with
    | error e => rw [hb] at ht; exact ht
    | ok t =>
      rw [hb] at ht
      cases t with
      | done r => exact ht
      | again s' => exact ih s' hb ht

/-- The states a run passes through, its first included. -/
inductive Loop.Visits (L : Loop ε σ ρ) : σ → σ → Prop
  | refl (s : σ) : L.Visits s s
  | step {s t u : σ} : L.body s = .ok (.again t) → L.Visits t u → L.Visits s u

theorem Loop.Visits.invariant {L : Loop ε σ ρ} {I : σ → Prop}
    (hturn : ∀ s t, I s → L.body s = .ok (.again t) → I t) {s u : σ}
    (h : L.Visits s u) (hs : I s) : I u := by
  induction h with
  | refl => exact hs
  | step hb _ ih => exact ih (hturn _ _ hs hb)

end RdsJson.Lib.TailLoop
