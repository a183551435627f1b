import TypedValues.Session.Basic

/-!
Actions: what a host does to a session. An action reads and changes the session as it goes; nothing
is undone when it ends in an error or a panic, so whether a failure leaves the session as it was
depends on what came before it.
-/

namespace TypedValues

@[ext] structure Action (ε α : Type) where
  run : Session → Session × Result ε α

namespace Action

variable {ε δ α β : Type}

/-- Goes on from the session and the value of the first action, if there is one. -/
def bind (x : Action ε α) (f : α → Action ε β) : Action ε β := ⟨fun s =>
  match x.run s with
  | (s, ⟨trace, .ok a⟩) =>
    match (f a).run s with
    | (s, r) => (s, ⟨trace ++ r.trace, r.outcome⟩)
  | (s, ⟨trace, .error e⟩) => (s, ⟨trace, .error e⟩)
  | (s, ⟨trace, .panic e⟩) => (s, ⟨trace, .panic e⟩)⟩

instance : Monad (Action ε) where
  pure a := ⟨fun s => (s, ⟨[], .ok a⟩)⟩
  bind := bind

/-- An attempt takes the policy from the session and changes nothing. -/
def attempt (x : Attempt ε α) : Action ε α := ⟨fun s => (s, x.run s.policy)⟩

instance : MonadLift (Attempt ε) (Action ε) := ⟨attempt⟩

def fail (e : ε) : Action ε α := attempt (.fail e)

def record (events : List Event) : Action ε Unit := attempt (.record events)

def get : Action ε Session := ⟨fun s => (s, ⟨[], .ok s⟩)⟩

def set (s : Session) : Action ε Unit := ⟨fun _ => (s, ⟨[], .ok ()⟩)⟩

def modify (f : Session → Session) : Action ε Unit := ⟨fun s => (f s, ⟨[], .ok ()⟩)⟩

def mapError (f : ε → δ) (x : Action ε α) : Action δ α := ⟨fun s =>
  let (s, r) := x.run s
  (s, r.mapError f)⟩

theorem bind_pure_eq (x : Action ε α) : x.bind pure = x := by
  refine Action.ext (funext fun s => ?_)
  rcases h : x.run s with ⟨s', t, a | e | e⟩ <;> simp [bind, pure, h]

theorem bind_assoc {γ : Type} (x : Action ε α) (f : α → Action ε β) (g : β → Action ε γ) :
    (x.bind f).bind g = x.bind fun a => (f a).bind g := by
  refine Action.ext (funext fun s => ?_)
  rcases h : x.run s with ⟨s', t, a | e | e⟩
  · rcases hf : (f a).run s' with ⟨s'', u, b | e | e⟩ <;> simp [bind, h, hf]
  · simp [bind, h]
  · simp [bind, h]

instance : LawfulMonad (Action ε) :=
  LawfulMonad.mk' _ bind_pure_eq (fun _ _ => rfl) bind_assoc

end Action

end TypedValues
