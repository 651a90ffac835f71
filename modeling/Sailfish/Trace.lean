import Sailfish.Crypto

/-!
# Call sequences

Every component of the primary studied here is a value that a task mutates one call at
a time (`&mut self` methods).  A sequence of calls is modelled by folding the call over
the inputs and collecting what each call returned; the claims about the components are
then statements about the call that follows an arbitrary prefix.

The aggregators keep, of a stream of messages, the first message of each author.
`firstArrivals` states that selection without reference to any aggregator, so that the
aggregators can be compared with it.
-/

namespace Sailfish

section FirstArrivals

variable {α β : Type} [DecidableEq β]

/-- The elements of `l` whose key does not occur earlier in `l`, in their order in `l`. -/
def firstArrivals (key : α → β) (l : List α) : List α :=
  (l.reverse.pwFilter fun x y => key x ≠ key y).reverse

@[simp] theorem firstArrivals_nil (key : α → β) : firstArrivals key [] = [] := rfl

theorem firstArrivals_append_singleton (key : α → β) (l : List α) (x : α) :
    firstArrivals key (l ++ [x]) =
      if key x ∈ l.map key then firstArrivals key l else firstArrivals key l ++ [x] := by
  have hall : (∀ b ∈ l.reverse.pwFilter (fun x y => key x ≠ key y), key x ≠ key b) ↔
      key x ∉ l.map key := by
    rw [@List.forall_mem_pwFilter α (fun a b => key a ≠ key b) _ (fun {x y _} hxz =>
      if hxy : key x = key y then Or.inr fun hyz => hxz (hxy.trans hyz) else Or.inl hxy)]
    simp only [List.mem_reverse, List.mem_map, not_exists, not_and]
    exact ⟨fun h b hb hk => h b hb hk.symm, fun h b hb hk => h b hb hk.symm⟩
  unfold firstArrivals
  rw [List.reverse_append, List.reverse_singleton, List.singleton_append]
  by_cases h : key x ∈ l.map key
  · rw [List.pwFilter_cons_of_neg (by rwa [hall, not_not]), if_pos h]
  · rw [List.pwFilter_cons_of_pos (hall.mpr h), if_neg h, List.reverse_cons]

theorem firstArrivals_append_singleton_of_mem (key : α → β) {l : List α} {x : α}
    (h : key x ∈ l.map key) : firstArrivals key (l ++ [x]) = firstArrivals key l := by
  rw [firstArrivals_append_singleton, if_pos h]

theorem firstArrivals_append_singleton_of_not_mem (key : α → β) {l : List α} {x : α}
    (h : key x ∉ l.map key) :
    firstArrivals key (l ++ [x]) = firstArrivals key l ++ [x] := by
  rw [firstArrivals_append_singleton, if_neg h]

/-- The first arrivals carry every key of the stream. -/
theorem mem_map_firstArrivals (key : α → β) (l : List α) (k : β) :
    k ∈ (firstArrivals key l).map key ↔ k ∈ l.map key := by
  induction l using List.reverseRecOn with
  | nil => simp
  | append_singleton l x ih =>
      rw [firstArrivals_append_singleton]
      split <;> simp_all [or_comm]

/-- The first arrivals carry each key once. -/
theorem nodup_map_firstArrivals (key : α → β) (l : List α) :
    ((firstArrivals key l).map key).Nodup := by
  induction l using List.reverseRecOn with
  | nil => simp
  | append_singleton l x ih =>
      rw [firstArrivals_append_singleton]
      split
      · exact ih
      · rename_i h
        rw [List.map_append, List.nodup_append]
        refine ⟨ih, List.nodup_singleton _, ?_⟩
        intro k hk hkx
        rw [List.map_singleton, List.mem_singleton] at hkx
        exact h (hkx ▸ (mem_map_firstArrivals key l k).mp hk)

end FirstArrivals

section Runs

variable {σ α β β' : Type}

/-- Make the calls `step · x` for the inputs `x` of `inputs` in order, from `s`; return
what each call returned and the final value. -/
def runSteps (step : σ → α → β × σ) (s : σ) (inputs : List α) : List β × σ :=
  inputs.foldl (fun acc x => (acc.1 ++ [(step acc.2 x).1], (step acc.2 x).2)) ([], s)

@[simp] theorem runSteps_nil (step : σ → α → β × σ) (s : σ) : runSteps step s [] = ([], s) :=
  rfl

theorem runSteps_append_singleton (step : σ → α → β × σ) (s : σ) (l : List α) (x : α) :
    runSteps step s (l ++ [x]) =
      ((runSteps step s l).1 ++ [(step (runSteps step s l).2 x).1],
        (step (runSteps step s l).2 x).2) := by
  simp [runSteps, List.foldl_append]

/-- A run of a call that acts on one part of the state through `wrap` is the run of that
part. -/
theorem runSteps_wrap {τ : Type} {step : σ → α → β × σ} {step' : τ → α → β × τ}
    (wrap : σ → τ) (h : ∀ s x, step' (wrap s) x = ((step s x).1, wrap (step s x).2))
    (s : σ) (l : List α) :
    runSteps step' (wrap s) l = ((runSteps step s l).1, wrap (runSteps step s l).2) := by
  induction l using List.reverseRecOn with
  | nil => rfl
  | append_singleton l x ih => rw [runSteps_append_singleton, runSteps_append_singleton, ih, h]

/-- A run whose state changes as another call's on transformed inputs ends in the same
state. -/
theorem runSteps_snd_map {γ : Type} (step : σ → α → β × σ) (step' : σ → γ → β' × σ)
    (f : γ → α) (h : ∀ s x, (step' s x).2 = (step s (f x)).2) (s : σ) (l : List γ) :
    (runSteps step' s l).2 = (runSteps step s (l.map f)).2 := by
  induction l using List.reverseRecOn with
  | nil => rfl
  | append_singleton l x ih =>
      rw [runSteps_append_singleton, List.map_append, List.map_singleton,
        runSteps_append_singleton, h, ih]

/-- As `runSteps`, for a call that may panic (`none`): a panic ends the run. -/
def runStepsOpt (step : σ → α → Option (β × σ)) (s : σ) (inputs : List α) :
    Option (List β × σ) :=
  inputs.foldl
    (fun acc x => acc.bind fun done => (step done.2 x).map fun r => (done.1 ++ [r.1], r.2))
    (some ([], s))

@[simp] theorem runStepsOpt_nil (step : σ → α → Option (β × σ)) (s : σ) :
    runStepsOpt step s [] = some ([], s) := rfl

theorem runStepsOpt_append_singleton (step : σ → α → Option (β × σ)) (s : σ) (l : List α)
    (x : α) :
    runStepsOpt step s (l ++ [x]) =
      (runStepsOpt step s l).bind fun done =>
        (step done.2 x).map fun r => (done.1 ++ [r.1], r.2) := by
  simp [runStepsOpt, List.foldl_append]

end Runs

end Sailfish
