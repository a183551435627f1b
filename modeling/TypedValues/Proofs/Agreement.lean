import TypedValues.Proofs.Attempt
import TypedValues.Value.Select
import Mathlib.Data.List.Forall2

/-! Results that agree. Two results agree when both are values that stand in a relation, or both fail
with errors of one category; the texts of the errors do not count. What agrees step by step agrees as a
whole. -/

namespace TypedValues

/-- Errors that may pass on an error of the library. -/
class Carries (ε : Type) where
  error? : ε → Option Error

instance : Carries Error := ⟨some⟩

instance : Carries Stray where
  error?
    | .error e => some e
    | _ => none

theorem Error.category_within (e : Error) (site : Site) : (e.within site).category = e.category := by
  cases e <;> rfl

/-- Related values, or errors of one category, which is not that of protocol errors. -/
inductive Except.Agrees {α β : Type} (R : α → β → Prop) : Except Error α → Except Error β → Prop
  | ok {a : α} {b : β} (h : R a b) : Agrees R (.ok a) (.ok b)
  | error {e e' : Error} (h : e.category = e'.category) (hstate : e.category ≠ .state) :
      Agrees R (.error e) (.error e')

namespace Except.Agrees

variable {α β γ δ : Type} {R : α → β → Prop} {S : γ → δ → Prop}

theorem dataAt (p p' : Path) (c c' : DataCause) :
    Agrees R (.error (.dataAt p c)) (.error (.dataAt p' c')) := .error rfl (by simp [Error.dataAt, Error.category])

theorem schemaAt (p p' : Path) (c c' : SchemaCause) :
    Agrees R (.error (.schemaAt p c)) (.error (.schemaAt p' c')) :=
  .error rfl (by simp [Error.schemaAt, Error.category])

theorem incompatible (p p' : Path) (o o' : Offer) :
    Agrees R (.error (.incompatible p o)) (.error (.incompatible p' o')) :=
  .error rfl (by simp [Error.category])

theorem notSupported (p p' : Path) (o o' : Operation) :
    Agrees R (.error (.notSupported p o)) (.error (.notSupported p' o')) :=
  .error rfl (by simp [Error.category])

theorem bind {x : Except Error α} {y : Except Error β} {f : α → Except Error γ} {g : β → Except Error δ}
    (h : Agrees R x y) (hf : ∀ a b, R a b → Agrees S (f a) (g b)) : Agrees S (x >>= f) (y >>= g) := by
  cases h with
  | ok h => exact hf _ _ h
  | error h hstate => exact .error h hstate

theorem pure {a : α} {b : β} (h : R a b) : Agrees R (Pure.pure a) (Pure.pure b) := .ok h

theorem underSite {x : Except Error α} {y : Except Error β} (h : Agrees R x y) (site site' : Site) :
    Agrees R (underSite site x) (underSite site' y) := by
  cases h with
  | ok h => exact .ok h
  | error h hstate =>
    exact .error (by rwa [Error.category_within, Error.category_within])
      (by rwa [Error.category_within])

theorem mono {R' : α → β → Prop} {x : Except Error α} {y : Except Error β} (h : Agrees R x y)
    (hR : ∀ a b, R a b → R' a b) : Agrees R' x y := by
  cases h with
  | ok h => exact .ok (hR _ _ h)
  | error h hstate => exact .error h hstate

theorem mapM {f : α → Except Error γ} {g : β → Except Error δ} {as : List α} {bs : List β}
    (h : List.Forall₂ (fun a b => Agrees S (f a) (g b)) as bs) :
    Agrees (List.Forall₂ S) (as.mapM f) (bs.mapM g) := by
  induction h with
  | nil => exact .ok .nil
  | cons hab _ ih =>
    rw [List.mapM_cons, List.mapM_cons]
    exact hab.bind fun c d hcd => ih.bind fun cs ds hcds => .pure (.cons hcd hcds)

theorem ne_state {x : Except Error α} {y : Except Error β} (h : Agrees R x y) (p : Path) (v : Violation) :
    x ≠ .error (.state p v) := by
  rintro rfl
  cases h with
  | error _ hstate => exact hstate rfl

end Except.Agrees

inductive Outcome.Agrees {ε δ α β : Type} [Carries ε] [Carries δ] (R : α → β → Prop) :
    Outcome ε α → Outcome δ β → Prop
  | ok {a : α} {b : β} (h : R a b) : Agrees R (.ok a) (.ok b)
  | error {e : ε} {e' : δ} (h : (Carries.error? e).map Error.category = (Carries.error? e').map Error.category) :
      Agrees R (.error e) (.error e')
  | panic (e e' : Error) : Agrees R (.panic e) (.panic e')

theorem Outcome.Agrees.refl {ε α : Type} [Carries ε] (o : Outcome ε α) : Agrees Eq o o := by
  cases o with
  | ok a => exact .ok rfl
  | error e => exact .error rfl
  | panic e => exact .panic e e

def Attempt.Agrees {ε δ α β : Type} [Carries ε] [Carries δ] (R : α → β → Prop) (x : Attempt ε α)
    (y : Attempt δ β) : Prop := ∀ p, Outcome.Agrees R (x.run p).outcome (y.run p).outcome

namespace Attempt.Agrees

variable {α β γ δ : Type} {R : α → β → Prop} {S : γ → δ → Prop} {x : Attempt Error α} {y : Attempt Error β}

theorem refl (x : Attempt Error α) : Agrees Eq x x := fun p => .refl (x.run p).outcome

theorem pure {a : α} {b : β} (h : R a b) : Agrees R (Pure.pure a : Attempt Error α) (Pure.pure b : Attempt Error β) :=
  fun _ => .ok h

theorem fail {e e' : Error} (h : e.category = e'.category) :
    Agrees R (Attempt.fail e : Attempt Error α) (Attempt.fail e' : Attempt Error β) :=
  fun _ => .error (congrArg some h)

theorem violate (path path' : Path) (v v' : Violation) :
    Agrees R (Attempt.violate path v) (Attempt.violate path' v') := fun p => by
  cases p
  · exact .panic _ _
  · exact .error rfl

theorem ofExcept {x : Except Error α} {y : Except Error β} (h : Except.Agrees R x y) :
    Agrees R (liftM x : Attempt Error α) (liftM y : Attempt Error β) := by
  cases h with
  | ok h => exact .pure h
  | error h _ => exact .fail h

theorem bind {f : α → Attempt Error γ} {g : β → Attempt Error δ} (h : Agrees R x y)
    (hf : ∀ a b, R a b → Agrees S (f a) (g b)) : Agrees S (x >>= f) (y >>= g) := by
  intro p
  have hp := h p
  simp only [run_bind, Result.andThen]
  generalize (x.run p).outcome = o, (y.run p).outcome = o' at hp
  cases hp with
  | ok h => exact hf _ _ h p
  | error h => exact .error h
  | panic e e' => exact .panic e e'

theorem under (h : Agrees R x y) (site site' : Site) : Agrees R (x.under site) (y.under site') := by
  intro p
  have hp := h p
  simp only [Attempt.under, Attempt.mapError, Result.mapError]
  generalize (x.run p).outcome = o, (y.run p).outcome = o' at hp
  cases hp with
  | ok h => exact .ok h
  | @error e e' h =>
    have hcategory : e.category = e'.category := Option.some.inj h
    refine .error (congrArg some ?_)
    rwa [Error.category_within, Error.category_within]
  | panic e e' => exact .panic e e'

theorem of_gives {a : α} {b : β} (hx : x.Gives a) (hy : y.Gives b) (h : R a b) : Agrees R x y := by
  intro p
  rw [hx p, hy p]
  exact .ok h

theorem trial (h : Agrees R x y) :
    Agrees (Option.Rel R) (x.trial : Attempt Error _) (y.trial : Attempt Error _) := by
  intro p
  have hp := h p
  simp only [Attempt.trial, Result.trial]
  generalize (x.run p).outcome = o, (y.run p).outcome = o' at hp
  cases hp with
  | ok h => exact .ok (.some h)
  | error h => exact .ok .none
  | panic e e' => exact .panic e e'

theorem mono {R' : α → β → Prop} (h : Agrees R x y) (hR : ∀ a b, R a b → R' a b) : Agrees R' x y := by
  intro p
  have hp := h p
  generalize (x.run p).outcome = o, (y.run p).outcome = o' at hp
  cases hp with
  | ok h => exact .ok (hR _ _ h)
  | error h => exact .error h
  | panic e e' => exact .panic e e'

end Attempt.Agrees

end TypedValues
