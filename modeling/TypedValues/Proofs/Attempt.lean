import TypedValues.Attempt

/-! Reasoning about attempts. `Ensures` bounds what an attempt can give under either policy, `Emits` what it
leaves in the trace, and `Quiet` says that it calls no observer; all follow the way an attempt is put together. -/

namespace TypedValues

def Event.observer? : Event → Option Observer
  | .notified o => some o
  | _ => none

theorem Except.bind_eq_ok {ε α β : Type} {x : Except ε α} {f : α → Except ε β} {b : β} :
    x >>= f = .ok b ↔ ∃ a, x = .ok a ∧ f a = .ok b := by
  cases x with
  | error e => simp [bind, Except.bind]
  | ok a => simp [bind, Except.bind]

theorem Except.pure_eq_ok {ε α : Type} {a b : α} : (pure a : Except ε α) = .ok b ↔ a = b :=
  Except.ok.injEq a b ▸ Iff.rfl

theorem Except.bind_pure_eq_ok {ε α β : Type} {x : Except ε α} {f : α → β} {b : β} :
    (do return f (← x)) = .ok b ↔ ∃ a, x = .ok a ∧ f a = b :=
  Except.bind_eq_ok.trans (exists_congr fun _ => and_congr_right fun _ => Except.pure_eq_ok)

theorem underSite_eq_ok {α : Type} {site : Site} {x : Except Error α} {a : α} :
    underSite site x = .ok a ↔ x = .ok a := by
  cases x with
  | error e => constructor <;> intro h <;> cases h
  | ok b => exact Iff.rfl

namespace Result

variable {ε δ α β : Type}

theorem andThen_eq_ok {r : Result ε α} {f : α → Result ε β} {b : β} :
    (r.andThen f).outcome = .ok b ↔ ∃ a, r.outcome = .ok a ∧ (f a).outcome = .ok b := by
  rcases r with ⟨t, a | e | e⟩ <;> simp [andThen]

theorem mem_trace_andThen {r : Result ε α} {f : α → Result ε β} {e : Event}
    (h : e ∈ (r.andThen f).trace) : e ∈ r.trace ∨ ∃ a, r.outcome = .ok a ∧ e ∈ (f a).trace := by
  rcases r with ⟨t, a | e' | e'⟩
  · rcases List.mem_append.1 h with h | h
    · exact .inl h
    · exact .inr ⟨a, rfl, h⟩
  · exact .inl h
  · exact .inl h

@[simp] theorem trace_mapError (f : ε → δ) (r : Result ε α) : (r.mapError f).trace = r.trace := by
  rcases r with ⟨t, a | e | e⟩ <;> rfl

theorem mapError_eq_ok {f : ε → δ} {r : Result ε α} {a : α} :
    (r.mapError f).outcome = .ok a ↔ r.outcome = .ok a := by
  rcases r with ⟨t, b | e | e⟩ <;> simp [mapError]

@[simp] theorem trace_trial (r : Result ε α) : (r.trial : Result δ _).trace = r.trace := by
  rcases r with ⟨t, a | e | e⟩ <;> rfl

theorem trial_eq_some {r : Result ε α} {a : α} :
    (r.trial : Result δ _).outcome = .ok (some a) ↔ r.outcome = .ok a := by
  rcases r with ⟨t, b | e | e⟩ <;> simp [trial]

end Result

namespace Attempt

variable {ε δ α β : Type}

/-- Whatever the attempt gives, under either policy, satisfies `P`. -/
def Ensures (x : Attempt ε α) (P : α → Prop) : Prop := ∀ p a, (x.run p).outcome = .ok a → P a

/-- The attempt calls no observer, however it ends. -/
def Quiet (x : Attempt ε α) : Prop := ∀ p, ∀ e ∈ (x.run p).trace, e.observer? = none

@[simp] theorem run_ofExcept (x : Except ε α) (p : Policy) :
    (liftM x : Attempt ε α).run p = .ofExcept x := rfl

theorem ofExcept_eq_ok {x : Except ε α} {a : α} : (Result.ofExcept x).outcome = .ok a ↔ x = .ok a := by
  cases x <;> simp [Result.ofExcept]

theorem bind_eq_ok {x : Attempt ε α} {f : α → Attempt ε β} {p : Policy} {b : β} :
    ((x >>= f).run p).outcome = .ok b ↔
      ∃ a, (x.run p).outcome = .ok a ∧ ((f a).run p).outcome = .ok b := by
  rw [run_bind, Result.andThen_eq_ok]

theorem bind_pure_eq_ok {x : Attempt ε α} {f : α → β} {p : Policy} {b : β} :
    ((do return f (← x) : Attempt ε β).run p).outcome = .ok b ↔ ∃ a, (x.run p).outcome = .ok a ∧ f a = b := by
  simp only [bind_eq_ok, run_pure, Outcome.ok.injEq]

theorem under_eq_ok {site : Site} {x : Attempt Error α} {p : Policy} {a : α} :
    ((x.under site).run p).outcome = .ok a ↔ (x.run p).outcome = .ok a :=
  Result.mapError_eq_ok

theorem not_fail_ok {e : ε} {p : Policy} {a : α} :
    ¬ ((fail e : Attempt ε α).run p).outcome = .ok a := by simp [fail]

theorem not_violate_ok {path : Path} {v : Violation} {p : Policy} {a : α} :
    ¬ ((violate path v : Attempt Error α).run p).outcome = .ok a := by
  cases p <;> simp [violate]

section

variable {P : α → Prop} {Q : β → Prop}

theorem ensures_pure {a : α} (h : P a) : (pure a : Attempt ε α).Ensures P := by
  intro p b hb
  simp only [run_pure, Outcome.ok.injEq] at hb
  exact hb ▸ h

theorem Ensures.bind {x : Attempt ε α} {f : α → Attempt ε β} (hx : x.Ensures P)
    (hf : ∀ a, P a → (f a).Ensures Q) : (x >>= f).Ensures Q := by
  intro p b hb
  obtain ⟨a, ha, hb⟩ := bind_eq_ok.1 hb
  exact hf a (hx p a ha) p b hb

theorem ensures_fail (e : ε) : (fail e : Attempt ε α).Ensures P :=
  fun _ _ h => absurd h not_fail_ok

theorem ensures_fail_bind (e : ε) (f : α → Attempt ε β) : (fail e >>= f).Ensures Q :=
  (ensures_fail (P := fun _ => False) e).bind fun _ h => h.elim

theorem ensures_violate (path : Path) (v : Violation) : (violate path v).Ensures P :=
  fun _ _ h => absurd h not_violate_ok

theorem ensures_ofExcept {x : Except ε α} (h : ∀ a, x = .ok a → P a) :
    (liftM x : Attempt ε α).Ensures P := fun _ a ha => h a (ofExcept_eq_ok.1 ha)

theorem Ensures.mapError {x : Attempt ε α} (h : x.Ensures P) (f : ε → δ) :
    (x.mapError f).Ensures P := fun p a ha => h p a (Result.mapError_eq_ok.1 ha)

theorem Ensures.under {x : Attempt Error α} (h : x.Ensures P) (site : Site) :
    (x.under site).Ensures P := h.mapError _

theorem Ensures.trial {x : Attempt ε α} (h : x.Ensures P) :
    (x.trial : Attempt δ _).Ensures fun o => ∀ a, o = some a → P a := by
  rintro p _ ha a rfl
  exact h p a (Result.trial_eq_some.1 ha)

theorem ensures_true (x : Attempt ε α) : x.Ensures fun _ => True := fun _ _ _ => trivial

end

/-- The attempt gives `a` under either policy. -/
def Gives (x : Attempt ε α) (a : α) : Prop := ∀ p, (x.run p).outcome = .ok a

theorem gives_pure (a : α) : (pure a : Attempt ε α).Gives a := fun _ => rfl

theorem Gives.bind {x : Attempt ε α} {f : α → Attempt ε β} {a : α} {b : β} (hx : x.Gives a)
    (hf : (f a).Gives b) : (x >>= f).Gives b := fun p => bind_eq_ok.2 ⟨a, hx p, hf p⟩

theorem gives_ofExcept {x : Except ε α} {a : α} (h : x = .ok a) : (liftM x : Attempt ε α).Gives a :=
  fun _ => ofExcept_eq_ok.2 h

theorem gives_record (events : List Event) : (record events : Attempt ε Unit).Gives () := fun _ => rfl

theorem Gives.under {x : Attempt Error α} {a : α} (h : x.Gives a) (site : Site) :
    (x.under site).Gives a := fun p => under_eq_ok.2 (h p)

section

variable {P : Event → Prop}

/-- All that the attempt leaves in the trace satisfies `P`, however it ends. -/
def Emits (P : Event → Prop) (x : Attempt ε α) : Prop := ∀ p, ∀ e ∈ (x.run p).trace, P e

theorem emits_pure (a : α) : (pure a : Attempt ε α).Emits P := by
  intro p e he
  simp at he

theorem Emits.bind {x : Attempt ε α} {f : α → Attempt ε β} (hx : x.Emits P) (hf : ∀ a, (f a).Emits P) :
    (x >>= f).Emits P := by
  intro p e he
  rcases Result.mem_trace_andThen he with h | ⟨a, -, h⟩
  · exact hx p e h
  · exact hf a p e h

theorem emits_fail (e : ε) : (fail e : Attempt ε α).Emits P := by
  intro p e' he
  simp [fail] at he

theorem emits_violate {path : Path} {v : Violation} (h : P (.violation path v)) :
    (violate path v : Attempt Error α).Emits P := by
  intro p e he
  cases p <;> simp only [violate, List.mem_singleton] at he <;> exact he ▸ h

theorem emits_ofExcept (x : Except ε α) : (liftM x : Attempt ε α).Emits P := by
  intro p e he
  cases x <;> simp [Result.ofExcept] at he

theorem emits_record {events : List Event} (h : ∀ e ∈ events, P e) :
    (record events : Attempt ε Unit).Emits P := fun _ => h

theorem Emits.mapError {x : Attempt ε α} (h : x.Emits P) (f : ε → δ) : (x.mapError f).Emits P := by
  intro p e he
  rw [Attempt.mapError, Result.trace_mapError] at he
  exact h p e he

theorem Emits.trial {x : Attempt ε α} (h : x.Emits P) : (x.trial : Attempt δ _).Emits P := by
  intro p e he
  rw [Attempt.trial, Result.trace_trial] at he
  exact h p e he

end

theorem quiet_pure (a : α) : (pure a : Attempt ε α).Quiet := emits_pure a

theorem Quiet.bind {x : Attempt ε α} {f : α → Attempt ε β} (hx : x.Quiet) (hf : ∀ a, (f a).Quiet) :
    (x >>= f).Quiet := Emits.bind hx hf

theorem quiet_fail (e : ε) : (fail e : Attempt ε α).Quiet := emits_fail e

theorem quiet_violate (path : Path) (v : Violation) : (violate path v : Attempt Error α).Quiet :=
  emits_violate rfl

theorem quiet_ofExcept (x : Except ε α) : (liftM x : Attempt ε α).Quiet := emits_ofExcept x

theorem quiet_record {events : List Event} (h : ∀ e ∈ events, e.observer? = none) :
    (record events : Attempt ε Unit).Quiet := emits_record h

theorem Quiet.mapError {x : Attempt ε α} (h : x.Quiet) (f : ε → δ) : (x.mapError f).Quiet :=
  Emits.mapError h f

theorem Quiet.trial {x : Attempt ε α} (h : x.Quiet) : (x.trial : Attempt δ _).Quiet := Emits.trial h

end Attempt

end TypedValues
