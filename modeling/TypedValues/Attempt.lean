import TypedValues.Event

/-!
Attempts: results that may be errors, with the events on the way to them. Events stay when a result
is an error, and also when the error is dropped. What breaking a protocol rule does depends on the
contract policy: it is an error like any other, or a panic, which nothing handles.
-/

namespace TypedValues

/-- What a protocol violation does beyond its event. -/
inductive Policy where
  | panic | report
  deriving DecidableEq

inductive Outcome (ε α : Type) where
  | ok (a : α)
  | error (e : ε)
  | panic (e : Error)

structure Result (ε α : Type) where
  trace : List Event
  outcome : Outcome ε α

namespace Result

variable {ε δ α β : Type}

def ofExcept : Except ε α → Result ε α
  | .ok a => ⟨[], .ok a⟩
  | .error e => ⟨[], .error e⟩

def andThen (r : Result ε α) (f : α → Result ε β) : Result ε β :=
  match r.outcome with
  | .ok a => ⟨r.trace ++ (f a).trace, (f a).outcome⟩
  | .error e => ⟨r.trace, .error e⟩
  | .panic e => ⟨r.trace, .panic e⟩

def mapError (f : ε → δ) (r : Result ε α) : Result δ α :=
  match r.outcome with
  | .ok a => ⟨r.trace, .ok a⟩
  | .error e => ⟨r.trace, .error (f e)⟩
  | .panic e => ⟨r.trace, .panic e⟩

def trial (r : Result ε α) : Result δ (Option α) :=
  match r.outcome with
  | .ok a => ⟨r.trace, .ok (some a)⟩
  | .error _ => ⟨r.trace, .ok none⟩
  | .panic e => ⟨r.trace, .panic e⟩

theorem andThen_of_ok {r : Result ε α} {a : α} (h : r.outcome = .ok a) (f : α → Result ε β) :
    r.andThen f = ⟨r.trace ++ (f a).trace, (f a).outcome⟩ := by
  simp [andThen, h]

theorem andThen_of_error {r : Result ε α} {e : ε} (h : r.outcome = .error e)
    (f : α → Result ε β) : r.andThen f = ⟨r.trace, .error e⟩ := by
  simp [andThen, h]

theorem andThen_of_panic {r : Result ε α} {e : Error} (h : r.outcome = .panic e)
    (f : α → Result ε β) : r.andThen f = ⟨r.trace, .panic e⟩ := by
  simp [andThen, h]

theorem andThen_ok (r : Result ε α) : (r.andThen fun a => ⟨[], .ok a⟩) = r := by
  rcases r with ⟨t, a | e | e⟩ <;> simp [andThen]

theorem andThen_assoc {γ : Type} (r : Result ε α) (f : α → Result ε β) (g : β → Result ε γ) :
    (r.andThen f).andThen g = r.andThen fun a => (f a).andThen g := by
  rcases r with ⟨t, a | e | e⟩
  · cases h : (f a).outcome <;> simp [andThen, h]
  · rfl
  · rfl

end Result

/-- What is tried, for either policy. -/
@[ext] structure Attempt (ε α : Type) where
  run : Policy → Result ε α

namespace Attempt

variable {ε δ α β : Type}

def fail (e : ε) : Attempt ε α := ⟨fun _ => ⟨[], .error e⟩⟩

def ofExcept (r : Except ε α) : Attempt ε α := ⟨fun _ => .ofExcept r⟩

instance : Monad (Attempt ε) where
  pure a := ⟨fun _ => ⟨[], .ok a⟩⟩
  bind x f := ⟨fun p => (x.run p).andThen fun a => (f a).run p⟩

instance : MonadLift (Except ε) (Attempt ε) := ⟨ofExcept⟩

def record (events : List Event) : Attempt ε Unit := ⟨fun _ => ⟨events, .ok ()⟩⟩

def emit (e : Event) : Attempt ε Unit := record [e]

def violate (path : Path) (v : Violation) : Attempt Error α :=
  ⟨fun
    | .panic => ⟨[.violation path v], .panic (.state path v)⟩
    | .report => ⟨[.violation path v], .error (.state path v)⟩⟩

def mapError (f : ε → δ) (x : Attempt ε α) : Attempt δ α := ⟨fun p => (x.run p).mapError f⟩

def under (site : Site) (x : Attempt Error α) : Attempt Error α := x.mapError (·.within site)

/-- Drops an error and keeps the events. -/
def trial (x : Attempt ε α) : Attempt δ (Option α) := ⟨fun p => (x.run p).trial⟩

@[simp] theorem run_pure (a : α) (p : Policy) :
    (pure a : Attempt ε α).run p = ⟨[], .ok a⟩ := rfl

@[simp] theorem run_bind (x : Attempt ε α) (f : α → Attempt ε β) (p : Policy) :
    (x >>= f).run p = (x.run p).andThen fun a => (f a).run p := rfl

instance : LawfulMonad (Attempt ε) :=
  LawfulMonad.mk' _
    (fun x => Attempt.ext (funext fun p => (x.run p).andThen_ok))
    (fun _ _ => rfl)
    (fun x _ _ => Attempt.ext (funext fun p => Result.andThen_assoc (x.run p) _ _))

end Attempt

end TypedValues
