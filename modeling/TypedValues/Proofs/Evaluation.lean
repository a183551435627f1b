import Mathlib.Algebra.GroupWithZero.Nat
import TypedValues.Proofs.Naming
import TypedValues.Proofs.Reassignment

/-! Evaluations. An expression is evaluated when something is staged from it. A variant stages its list anew for
each alternative that it tries, and an assignment tries the active one before all others, so one call may
evaluate an expression several times. Without a choice it is evaluated once. -/

namespace TypedValues

variable {n : Nat}

def Event.evaluates (n : Nat) : Event → Bool
  | .evaluated number => number == n
  | _ => false

/-- How often the expression with this number was evaluated. -/
def evaluations (n : Nat) (trace : List Event) : Nat := trace.countP (·.evaluates n)

theorem evaluations_append (t₁ t₂ : List Event) :
    evaluations n (t₁ ++ t₂) = evaluations n t₁ + evaluations n t₂ := List.countP_append

theorem evaluations_eq_zero {trace : List Event} (h : ∀ e ∈ trace, e.evaluates n = false) :
    evaluations n trace = 0 := List.countP_eq_zero.2 fun e he => by simp [h e he]

def Operand.calls (n : Nat) : Operand → Bool
  | .expression e => e.number == n
  | _ => false

/-- How often the expression with this number is among the operands. -/
def calls (n : Nat) (os : List Operand) : Nat := os.countP (·.calls n)

/-- How often the expression with this number is in what the slots hold. -/
def slotCalls (n : Nat) (slots : List (Option Initializer)) : Nat :=
  (slots.map (·.elim 0 fun i => calls n i.operands)).sum

/-- How often the expression with this number is evaluated on the way to a result: `hi` times at most, and `lo`
times at least if the result is a value. -/
structure Result.Evaluates {ε α : Type} (n : Nat) (r : Result ε α) (lo hi : Nat) : Prop where
  most : evaluations n r.trace ≤ hi
  least : ∀ a, r.outcome = .ok a → lo ≤ evaluations n r.trace

theorem Result.Evaluates.andThen {ε α β : Type} {r : Result ε α} {f : α → Result ε β} {lo hi lo' hi' : Nat}
    (hr : r.Evaluates n lo hi) (hf : ∀ a, r.outcome = .ok a → (f a).Evaluates n lo' hi') :
    (r.andThen f).Evaluates n (lo + lo') (hi + hi') := by
  have hmost := hr.most
  rcases r with ⟨trace, a | e | e⟩
  · have hrest := hf a rfl
    refine ⟨?_, fun b hb => ?_⟩
    · rw [Result.andThen, evaluations_append]
      exact Nat.add_le_add hmost hrest.most
    · rw [Result.andThen, evaluations_append]
      exact Nat.add_le_add (hr.least a rfl) (hrest.least b hb)
  · exact ⟨hmost.trans (Nat.le_add_right ..), fun b hb => by cases hb⟩
  · exact ⟨hmost.trans (Nat.le_add_right ..), fun b hb => by cases hb⟩

theorem Result.Evaluates.after {ε α β : Type} {r : Result ε α} {f : α → Result ε β} {lo hi : Nat}
    (hr : r.Evaluates n 0 0) (hf : ∀ a, r.outcome = .ok a → (f a).Evaluates n lo hi) :
    (r.andThen f).Evaluates n lo hi := by
  have h := hr.andThen hf
  rwa [Nat.zero_add, Nat.zero_add] at h

/-- What comes after a trial that failed comes on top of it. -/
theorem Result.Evaluates.orElse {ε δ α β : Type} {r : Result ε α} {f : Option α → Result δ β} {lo hi hi' : Nat}
    (hr : r.Evaluates n lo hi) (hsome : ∀ a, (f (some a)).Evaluates n 0 0)
    (hnone : (f none).Evaluates n lo hi') :
    ((r.trial : Result δ _).andThen f).Evaluates n lo (hi + hi') := by
  have hmost := hr.most
  rcases r with ⟨trace, a | e | e⟩
  · refine ⟨?_, fun b _ => ?_⟩
    · rw [Result.trial, Result.andThen, evaluations_append]
      exact Nat.add_le_add hmost ((hsome a).most.trans (Nat.zero_le _))
    · rw [Result.trial, Result.andThen, evaluations_append]
      exact (hr.least a rfl).trans (Nat.le_add_right ..)
  · refine ⟨?_, fun b hb => ?_⟩
    · rw [Result.trial, Result.andThen, evaluations_append]
      exact Nat.add_le_add hmost hnone.most
    · rw [Result.trial, Result.andThen, evaluations_append]
      exact (hnone.least b hb).trans (Nat.le_add_left ..)
  · exact ⟨hmost.trans (Nat.le_add_right ..), fun b hb => by cases hb⟩

namespace Attempt

variable {ε δ α β : Type} {lo hi lo' hi' : Nat}

def Evaluates (n : Nat) (x : Attempt ε α) (lo hi : Nat) : Prop := ∀ p, (x.run p).Evaluates n lo hi

theorem Evaluates.mono {x : Attempt ε α} (h : x.Evaluates n lo hi) (hlo : lo' ≤ lo) (hhi : hi ≤ hi') :
    x.Evaluates n lo' hi' := fun p => ⟨(h p).most.trans hhi, fun a ha => hlo.trans ((h p).least a ha)⟩

theorem Emits.evaluates {x : Attempt ε α} (h : x.Emits fun e => e.evaluates n = false) :
    x.Evaluates n 0 0 := fun p => ⟨(evaluations_eq_zero (h p)).le, fun _ _ => Nat.zero_le _⟩

theorem evaluates_pure (a : α) : (pure a : Attempt ε α).Evaluates n 0 0 := (emits_pure a).evaluates

theorem evaluates_fail (e : ε) : (fail e : Attempt ε α).Evaluates n lo 0 := fun p =>
  ⟨((emits_fail e).evaluates p).most, fun _ h => absurd h not_fail_ok⟩

theorem evaluates_ofExcept {x : Except ε α} (h : ∀ a, x = .ok a → lo = 0) :
    (liftM x : Attempt ε α).Evaluates n lo 0 := fun p =>
  ⟨((emits_ofExcept x).evaluates p).most, fun a ha => (h a (ofExcept_eq_ok.1 ha)).le.trans (Nat.zero_le _)⟩

theorem Evaluates.bind {x : Attempt ε α} {f : α → Attempt ε β} (hx : x.Evaluates n lo hi)
    (hf : ∀ a, (f a).Evaluates n lo' hi') : (x >>= f).Evaluates n (lo + lo') (hi + hi') :=
  fun p => (hx p).andThen fun a _ => hf a p

theorem Evaluates.after {x : Attempt ε α} {f : α → Attempt ε β} (hx : x.Evaluates n 0 0)
    (hf : ∀ a, (f a).Evaluates n lo hi) : (x >>= f).Evaluates n lo hi := fun p => (hx p).after fun a _ => hf a p

theorem Evaluates.map {x : Attempt ε α} {f : α → Attempt ε β} (hx : x.Evaluates n lo hi)
    (hf : ∀ a, (f a).Evaluates n 0 0) : (x >>= f).Evaluates n lo hi := hx.bind hf

theorem evaluates_ofExcept_bind {x : Except ε α} {f : α → Attempt ε β}
    (hf : ∀ a, x = .ok a → (f a).Evaluates n lo hi) : (liftM x >>= f : Attempt ε β).Evaluates n lo hi := by
  cases x with
  | ok a => exact hf a rfl
  | error e => exact (evaluates_fail e).mono le_rfl (Nat.zero_le _)

theorem Evaluates.mapError {x : Attempt ε α} (h : x.Evaluates n lo hi) (f : ε → δ) :
    (x.mapError f).Evaluates n lo hi := by
  intro p
  rw [Attempt.mapError]
  refine ⟨?_, fun a ha => ?_⟩
  · rw [Result.trace_mapError]
    exact (h p).most
  · rw [Result.trace_mapError]
    exact (h p).least a (Result.mapError_eq_ok.1 ha)

theorem Evaluates.orElse {x : Attempt ε α} {f : Option α → Attempt δ β} (hx : x.Evaluates n lo hi)
    (hsome : ∀ a, (f (some a)).Evaluates n 0 0) (hnone : (f none).Evaluates n lo hi') :
    (x.trial >>= f).Evaluates n lo (hi + hi') := fun p => (hx p).orElse (fun a => hsome a p) (hnone p)

end Attempt

theorem stageSnapshot_evaluates (t : Ty) (v : Snapshot) : (stageSnapshot t v).Evaluates n 0 0 := by
  unfold stageSnapshot
  split
  · exact Attempt.Emits.evaluates (Attempt.emits_violate rfl)
  · exact (Attempt.emits_ofExcept _).evaluates

/-- Of the operands, an expression is evaluated once, and the others are not. -/
theorem stageOperand_evaluates (t : Ty) (o : Operand) :
    (stageOperand t o).Evaluates n (calls n [o]) (calls n [o]) := by
  cases o with
  | literal l => exact (Attempt.emits_ofExcept _).evaluates
  | value v => exact stageSnapshot_evaluates t v
  | item r => exact (Attempt.emits_ofExcept _).evaluates
  | expression e =>
    have hemit : (Attempt.emit (.evaluated e.number) : Attempt Error Unit).Evaluates n
        (calls n [.expression e]) (calls n [.expression e]) := by
      intro p
      have hcount : evaluations n [.evaluated e.number] = calls n [.expression e] := by
        simp [evaluations, calls, Event.evaluates, Operand.calls]
      exact ⟨hcount.le, fun _ _ => hcount.ge⟩
    have hevaluate : (evaluate e).Evaluates n (calls n [.expression e]) (calls n [.expression e]) :=
      hemit.map fun _ => (Attempt.emits_ofExcept _).evaluates
    exact hevaluate.map fun v => stageSnapshot_evaluates t v

theorem sum_map_set {σ : Type} (f : σ → Nat) {xs : List σ} {i : Nat} {a : σ} (h : xs[i]? = some a) (b : σ) :
    ((xs.set i b).map f).sum + f a = (xs.map f).sum + f b := by
  induction xs generalizing i with
  | nil => cases h
  | cons x xs ih =>
    cases i with
    | zero =>
      cases h
      simp only [List.set_cons_zero, List.map_cons, List.sum_cons]
      omega
    | succ i =>
      have := ih h
      simp only [List.set_cons_succ, List.map_cons, List.sum_cons]
      omega

theorem placeAll_calls {names : List String} {slots filled : List (Option Initializer)} {cursor : Nat}
    {entries : List (Option String × Initializer)} (h : placeAll names slots cursor entries = .ok filled) :
    slotCalls n filled = slotCalls n slots + (entries.map fun e => calls n e.2.operands).sum := by
  induction entries generalizing slots cursor with
  | nil => cases h; rfl
  | cons e rest ih =>
    obtain ⟨i, -, hfree, hrest⟩ := placeAll_cons.1 h
    have hset := sum_map_set (fun slot : Option Initializer => slot.elim 0 fun i => calls n i.operands) hfree
      (some e.2)
    rw [ih hrest, List.map_cons, List.sum_cons, ← Nat.add_assoc]
    exact congrArg (· + _) hset

theorem calls_operandsAll (es : List InitEntry) :
    calls n (InitEntry.operandsAll es) = (es.map fun e => calls n e.initializer.operands).sum := by
  rw [InitEntry.operandsAll_eq, calls, List.countP_flatMap]
  rfl

theorem memberSlots_calls {t : Ty} {ms : List Member} {es : List InitEntry} {slots : List (Option Initializer)}
    (h : memberSlots t ms (es.map fun e => (e.name, e.initializer)) = .ok slots) :
    slotCalls n slots = calls n (InitEntry.operandsAll es) := by
  have hblank : slotCalls n (List.replicate ms.length none) = 0 := by simp [slotCalls]
  rw [placeAll_calls (memberSlots_eq_ok.1 h), hblank, Nat.zero_add, List.map_map, calls_operandsAll]
  rfl

mutual

/-- How often an operand may be staged for a value of the type: a variant gives its list to one alternative
after the other, and a struct each of its entries to one member. -/
def Ty.trials (t : Ty) : Nat :=
  match t with
  | ⟨_, _, _, .optional (some inner), _, _⟩ => inner.trials
  | ⟨_, _, _, .variant alternatives, _, _⟩ => max 1 (Ty.trialsSum alternatives)
  | ⟨_, _, _, .struct _ members, _, _⟩ => Member.trialsMax members
  | ⟨_, _, _, .array (some element), _, _⟩ => element.trials
  | _ => 1
termination_by structural t

def Ty.trialsSum (alternatives : List Ty) : Nat :=
  match alternatives with
  | [] => 0
  | t :: rest => t.trials + Ty.trialsSum rest
termination_by structural alternatives

def Member.trialsMax (members : List Member) : Nat :=
  match members with
  | [] => 1
  | ⟨_, type, _⟩ :: rest => max type.trials (Member.trialsMax rest)
termination_by structural members

end

theorem Member.one_le_trialsMax (ms : List Member) : 1 ≤ Member.trialsMax ms := by
  induction ms with
  | nil => exact le_rfl
  | cons m ms ih =>
    rcases m with ⟨symbol, type, default⟩
    exact ih.trans (le_max_right ..)

theorem Member.trials_le_trialsMax {ms : List Member} {m : Member} (h : m ∈ ms) :
    m.type.trials ≤ Member.trialsMax ms := by
  induction ms with
  | nil => cases h
  | cons m' ms ih =>
    rcases m' with ⟨symbol, type, default⟩
    rw [Member.trialsMax]
    rcases List.mem_cons.1 h with rfl | h
    · exact le_max_left ..
    · exact (ih h).trans (le_max_right ..)

namespace Ty

theorem one_le_trials (t : Ty) : 1 ≤ t.trials := by
  induction t using Ty.inductOn with
  | step t ih =>
    rcases t with ⟨identity, symbol, id, shape, attributes, aliased⟩
    cases shape with
    | optional argument =>
      cases argument with
      | none => exact le_rfl
      | some u => exact ih u List.mem_cons_self
    | array argument =>
      cases argument with
      | none => exact le_rfl
      | some u => exact ih u List.mem_cons_self
    | variant => exact le_max_left ..
    | struct base members => exact Member.one_le_trialsMax members
    | _ => exact le_rfl

theorem trials_le_trialsSum {us : List Ty} {u : Ty} (h : u ∈ us) : u.trials ≤ Ty.trialsSum us := by
  induction us with
  | nil => cases h
  | cons v us ih =>
    rw [trialsSum]
    rcases List.mem_cons.1 h with rfl | h
    · exact Nat.le_add_right ..
    · exact (ih h).trans (Nat.le_add_left ..)

theorem trialsSum_le_trials {t : Ty} {us : List Ty} (hs : t.shape = .variant us) : Ty.trialsSum us ≤ t.trials := by
  rcases t with ⟨_, _, _, _, _, _⟩
  cases hs
  exact le_max_right ..

theorem trials_component {t u : Ty} (hu : u ∈ t.shape.components) : u.trials ≤ t.trials := by
  rcases t with ⟨identity, symbol, id, shape, attributes, aliased⟩
  cases shape with
  | optional argument | array argument =>
    cases argument with
    | none => cases hu
    | some v => rw [List.mem_singleton.1 hu]; exact le_rfl
  | variant us => exact (trials_le_trialsSum hu).trans (trialsSum_le_trials rfl)
  | struct base members =>
    obtain ⟨m, hm, rfl⟩ := List.mem_map.1 hu
    exact Member.trials_le_trialsMax hm
  | _ => cases hu

/-- Where nothing is chosen, nothing is tried twice. -/
theorem trials_eq_one {t : Ty} (h : ¬ t.Chooses) : t.trials = 1 := by
  induction t using Ty.inductOn with
  | step t ih =>
    have hcomponent (u : Ty) (hu : u ∈ t.shape.components) : u.trials = 1 :=
      ih u hu fun hc => h (.component hu hc)
    rcases t with ⟨identity, symbol, id, shape, attributes, aliased⟩
    cases shape with
    | optional argument =>
      cases argument with
      | none => rfl
      | some u => exact hcomponent u List.mem_cons_self
    | array argument =>
      cases argument with
      | none => rfl
      | some u => exact hcomponent u List.mem_cons_self
    | variant => exact absurd (.variant rfl) h
    | struct base members =>
      have hmax : ∀ ms : List Member, (∀ m ∈ ms, m.type.trials = 1) → Member.trialsMax ms = 1 := by
        intro ms hms
        induction ms with
        | nil => rfl
        | cons m ms ih =>
          rw [List.forall_mem_cons] at hms
          rcases m with ⟨symbol, type, default⟩
          rw [Member.trialsMax, hms.1, ih hms.2, max_self]
      exact hmax members fun m hm => hcomponent m.type (List.mem_map_of_mem hm)
    | _ => rfl

end Ty

theorem stageComponents_evaluates (t : Ty) (k : Nat) (es : List InitEntry) :
    (liftM (stageComponents t k es) : Attempt Error _).Evaluates n (calls n (Input.entries es).operands) 0 := by
  refine Attempt.evaluates_ofExcept fun c hc => List.countP_eq_zero.2 fun o ho => ?_
  obtain ⟨l, rfl⟩ := stageComponents_accepts hc o ho
  exact Bool.false_ne_true

theorem attemptElements_evaluates {σ τ : Type} {f : σ → Attempt Error τ} {w : σ → Nat} {b i : Nat} {xs : List σ}
    (h : ∀ x ∈ xs, (f x).Evaluates n (w x) (b * w x)) :
    (attemptElements f i xs).Evaluates n (xs.map w).sum (b * (xs.map w).sum) := by
  induction xs generalizing i with
  | nil => exact Attempt.evaluates_pure _
  | cons x xs ih =>
    rw [List.forall_mem_cons] at h
    rw [List.map_cons, List.sum_cons, Nat.mul_add]
    exact (h.1.mapError _).bind fun y => (ih h.2).map fun ys => Attempt.evaluates_pure _

/-- The alternatives are tried one after the other, each with all of the input. -/
theorem stageAlternatives_evaluates {us : List Ty} {i k : Nat} {input : Input} {e : Error}
    {f : Option (Content Ty) → Attempt Error (Content Ty)} (hsome : ∀ c, f (some c) = pure c)
    (hnone : f none = Attempt.fail e) (h : ∀ u ∈ us, (stage u input).Evaluates n k (u.trials * k)) :
    (stageAlternatives us i input >>= f).Evaluates n k (Ty.trialsSum us * k) := by
  induction us generalizing i with
  | nil =>
    rw [stageAlternatives, pure_bind, hnone]
    exact (Attempt.evaluates_fail e).mono le_rfl (Nat.zero_le _)
  | cons u rest ih =>
    rw [List.forall_mem_cons] at h
    rw [stageAlternatives, bind_assoc, Ty.trialsSum, Nat.add_mul]
    refine h.1.orElse (fun c => ?_) (ih h.2)
    rw [pure_bind, hsome]
    exact Attempt.evaluates_pure _

theorem stageMembers_evaluates {ms : List Member} {slots : List (Option Initializer)} {b : Nat}
    (hlength : slots.length = ms.length)
    (h : ∀ m ∈ ms, ∀ i : Initializer,
      (stage m.type i.input).Evaluates n (calls n i.operands) (b * calls n i.operands)) :
    (stageMembers ms slots).Evaluates n (slotCalls n slots) (b * slotCalls n slots) := by
  induction ms generalizing slots with
  | nil =>
    obtain rfl := List.length_eq_zero_iff.1 hlength
    exact Attempt.evaluates_pure _
  | cons m ms ih =>
    rcases slots with _ | ⟨slot, slots⟩
    · cases hlength
    rw [List.forall_mem_cons] at h
    rcases m with ⟨symbol, type, default⟩
    rw [stageMembers, slotCalls, List.map_cons, List.sum_cons, Nat.mul_add]
    refine Attempt.Evaluates.bind (.mapError ?_ _) fun node =>
      (ih (Nat.succ.inj hlength) h.2).map fun ns => Attempt.evaluates_pure _
    cases slot with
    | none => exact (Attempt.emits_ofExcept _).evaluates
    | some i => exact (h.1 i).map fun c => Attempt.evaluates_pure _

theorem stage_struct_evaluates {t : Ty} {members : List Member} {es : List InitEntry} {b : Nat}
    (h : ∀ m ∈ members, ∀ i : Initializer,
      (stage m.type i.input).Evaluates n (calls n i.input.operands) (b * calls n i.input.operands)) : (do
      let slots ← memberSlots t members (es.map fun e => (e.name, e.initializer))
      return .struct (← stageMembers members slots) : Attempt Error (Content Ty)).Evaluates n
        (calls n (Input.entries es).operands) (b * calls n (Input.entries es).operands) := by
  simp only [Initializer.operands_input] at h
  refine Attempt.evaluates_ofExcept_bind fun slots hslots => ?_
  have hall := stageMembers_evaluates (memberSlots_places hslots).1 h
  rw [memberSlots_calls hslots] at hall
  exact hall.map fun ns => Attempt.evaluates_pure _

/-- An operand is evaluated once at least if its input is accepted, and once for each trial at most. -/
theorem stage_evaluates (n : Nat) (t : Ty) (input : Input) :
    (stage t input).Evaluates n (calls n input.operands) (t.trials * calls n input.operands) := by
  induction t using Ty.inductOn generalizing input with
  | step t ih =>
    have part {u : Ty} (hu : u ∈ t.shape.components) (input : Input) :
        (stage u input).Evaluates n (calls n input.operands) (t.trials * calls n input.operands) :=
      (ih u hu input).mono le_rfl (Nat.mul_le_mul_right _ (Ty.trials_component hu))
    have single (o : Operand) : (stageOperand t o).Evaluates n (calls n [o]) (t.trials * calls n [o]) :=
      (stageOperand_evaluates t o).mono le_rfl (Nat.le_mul_of_pos_left _ t.one_le_trials)
    have hcase := stage_cases t input
    generalize stage t input = x at hcase ⊢
    cases hcase with
    | whole o => exact single o
    | @lone o => exact single o
    | default => exact (Attempt.emits_ofExcept _).evaluates
    | components hs es => exact (stageComponents_evaluates t _ es).mono le_rfl (Nat.zero_le _)
    | optional hs es => exact (part (Ty.component_optional hs) _).map fun c => Attempt.evaluates_pure _
    | variant hs es =>
      refine (stageAlternatives_evaluates (fun c => rfl) rfl fun u hu =>
        ih u (Ty.component_variant hs hu) _).mono le_rfl ?_
      exact Nat.mul_le_mul_right _ (Ty.trialsSum_le_trials hs)
    | struct hs es => exact stage_struct_evaluates fun m hm i => part (Ty.component_struct hs hm) i.input
    | @array u hs es hnames =>
      have helement : ∀ e ∈ es, (do
          return ⟨u, ← stage u e.initializer.input⟩ : Attempt Error (Node Ty)).Evaluates n
            (calls n e.initializer.operands) (t.trials * calls n e.initializer.operands) := by
        intro e _
        rw [← Initializer.operands_input]
        exact (part (Ty.component_array hs) _).map fun c => Attempt.evaluates_pure _
      rw [Input.operands, calls_operandsAll]
      exact (attemptElements_evaluates helement).map fun ns => Attempt.evaluates_pure _
    | refused es => exact (Attempt.evaluates_fail _).mono le_rfl (Nat.zero_le _)

theorem stageList_evaluates (n : Nat) (t : Ty) (es : List InitEntry) : (stageList t es).Evaluates n
    (calls n (InitEntry.operandsAll es)) (t.trials * calls n (InitEntry.operandsAll es)) := by
  have h := stage_evaluates n t (.ofList es)
  rwa [Input.operands_ofList] at h

/-- The active alternative of a variant is one more that is tried. -/
theorem restage_evaluates {α : Type} (n : Nat) (t : Ty) (current : Content α) (es : List InitEntry) :
    (restage t current es).Evaluates n (calls n (InitEntry.operandsAll es))
      (2 * t.trials * calls n (InitEntry.operandsAll es)) := by
  have hall : (stageList t es).Evaluates n (calls n (InitEntry.operandsAll es))
      (2 * t.trials * calls n (InitEntry.operandsAll es)) :=
    (stageList_evaluates n t es).mono le_rfl (Nat.mul_le_mul_right _ (by omega))
  unfold restage
  split
  next us active inner hs =>
    split
    next u hu =>
      have hle := Ty.trials_component (Ty.component_variant hs (List.mem_of_getElem? hu))
      refine Attempt.Evaluates.mono (.orElse (stageList_evaluates n u es) (fun c => Attempt.evaluates_pure _)
        (stageList_evaluates n t es)) le_rfl ?_
      rw [← Nat.add_mul]
      exact Nat.mul_le_mul_right _ (by omega)
    next => exact hall
  next => exact hall

theorem stageList_once (n : Nat) {t : Ty} (ht : ¬ t.Chooses) (es : List InitEntry) :
    (stageList t es).Evaluates n (calls n (InitEntry.operandsAll es)) (calls n (InitEntry.operandsAll es)) := by
  have h := stageList_evaluates n t es
  rwa [Ty.trials_eq_one ht, Nat.one_mul] at h

theorem restage_once {α : Type} (n : Nat) {t : Ty} (ht : ¬ t.Chooses) (current : Content α) (es : List InitEntry) :
    (restage t current es).Evaluates n (calls n (InitEntry.operandsAll es)) (calls n (InitEntry.operandsAll es)) := by
  rw [restage_of_other fun us hs => ht (.variant hs)]
  exact stageList_once n ht es

theorem notifications_evaluate (called : List Observer) : ∀ e ∈ notifications called, e.evaluates n = false :=
  List.forall_mem_map.2 fun _ _ => rfl

theorem Edit.commit_evaluates (edit : Edit) (cell : Cell) (current : Option (Content Cell)) (s : Signals) :
    ∀ e ∈ (edit.commit cell current s).events, e.evaluates n = false := by
  have announced {e : Event} (h : e.evaluates n = false) (s : Signals) :
      ∀ e' ∈ Edit.announce cell e s, e'.evaluates n = false :=
    List.forall_mem_cons.2 ⟨h, notifications_evaluate _⟩
  have planted : ∀ e ∈ [Event.constructed cell.type.path], e.evaluates n = false :=
    List.forall_mem_cons.2 ⟨rfl, fun e he => by cases he⟩
  cases edit with
  | install content => exact planted
  | replace content =>
    cases current with
    | none => exact planted
    | some old =>
      refine List.forall_mem_append.2 ⟨notifications_evaluate _, ?_⟩
      split
      · exact announced rfl _
      · exact fun e he => by cases he
  | insert i element => exact announced rfl _
  | remove i => exact announced rfl _
  | keep => exact fun e he => by cases he

theorem Holder.commit_evaluates (v : Value) (location : Location) (edit : Edit) (s : Signals) :
    ∀ e ∈ (v.commit location edit s).events, e.evaluates n = false := by
  unfold Holder.commit
  split
  · exact fun e he => edit.commit_evaluates _ _ _ e he
  · exact fun e he => by cases he
  · dsimp only
    split
    · exact fun e he => by cases he
    · exact fun e he => edit.commit_evaluates _ _ _ e he

section

variable {α : Type} [HasType α] {lo hi : Nat}

theorem stageChange_construct (h : Holder α) {es : List InitEntry} (hlist : (stageList h.type es).Evaluates n lo hi) :
    (h.stageChange (.construct es)).Evaluates n lo hi := by
  have hblank : h.ensureUnconstructed.Evaluates n 0 0 := by
    unfold Holder.ensureUnconstructed
    split
    · exact Attempt.Emits.evaluates (Attempt.emits_violate rfl)
    · exact Attempt.evaluates_pure _
  exact hblank.after fun _ => hlist.map fun c => Attempt.evaluates_pure _

theorem stageChange_reassign (h : Holder α) {es : List InitEntry}
    (hlist : ∀ current : Content α, (restage h.type current es).Evaluates n lo hi) :
    (h.stageChange (.assign es)).Evaluates n lo hi := by
  have hread : h.constructed.Evaluates n 0 0 := (h.constructed_emits fun _ _ => rfl).evaluates
  exact hread.after fun current => (hlist current).map fun c => Attempt.evaluates_pure _

end

namespace Session

theorem change_evaluates {s : Session} {label : String} {walk : List Access} {location : Location} {v : Value}
    (hv : s.Reaches label walk location v) {c : Change} {lo hi : Nat} (h : (v.stageChange c).Evaluates n lo hi) :
    ((change label walk c).run s).2.Evaluates n lo hi := by
  obtain ⟨root, hroot, hreach⟩ := hv
  have hwalk : ((root.reachAll walk).run s.policy).Evaluates n 0 0 :=
    Attempt.Emits.evaluates (root.reachAll_emits (fun _ _ => rfl) walk) s.policy
  have hprepare : ((prepare root walk c).run s.policy).Evaluates n lo hi := by
    refine hwalk.after fun p hp => ?_
    cases hp.symm.trans hreach
    exact ((h.mapError _).map fun r => Attempt.evaluates_pure _) s.policy
  rw [run_change hroot]
  generalize (prepare root walk c).run s.policy = r at hprepare
  rcases r with ⟨trace, ⟨location', edit, position⟩ | e | e⟩
  · have hcommit := evaluations_eq_zero (root.commit_evaluates (n := n) location' edit s.signals)
    have htrace : evaluations n (trace ++ (root.commit location' edit s.signals).events) = evaluations n trace := by
      rw [evaluations_append, hcommit, Nat.add_zero]
    exact ⟨htrace.le.trans hprepare.most, fun _ _ => (hprepare.least _ rfl).trans htrace.ge⟩
  · exact ⟨hprepare.most, fun _ h => by cases h⟩
  · exact ⟨hprepare.most, fun _ h => by cases h⟩

/-- A call evaluates an expression of its list once at least if it succeeds, and at most as often as the list is
tried: once for each alternative, at every level, and for an assignment also for the active one. Where nothing is
chosen, it evaluates the expression once, or not at all if it fails before. -/
theorem evaluated_per_trial {s : Session} {label : String} {walk : List Access} {location : Location} {v : Value}
    (hv : s.Reaches label walk location v) (es : List InitEntry) (n : Nat) :
    ((change label walk (.construct es)).run s).2.Evaluates n (calls n (InitEntry.operandsAll es))
      (v.type.trials * calls n (InitEntry.operandsAll es)) ∧
    ((change label walk (.assign es)).run s).2.Evaluates n (calls n (InitEntry.operandsAll es))
      (2 * v.type.trials * calls n (InitEntry.operandsAll es)) ∧
    (¬ v.type.Chooses → ∀ c, c = .construct es ∨ c = .assign es →
      ((change label walk c).run s).2.Evaluates n (calls n (InitEntry.operandsAll es))
        (calls n (InitEntry.operandsAll es))) := by
  refine ⟨change_evaluates hv (stageChange_construct v (stageList_evaluates n v.type es)),
    change_evaluates hv (stageChange_reassign v fun current => restage_evaluates n v.type current es), ?_⟩
  rintro hchoice c (rfl | rfl)
  · exact change_evaluates hv (stageChange_construct v (stageList_once n hchoice es))
  · exact change_evaluates hv (stageChange_reassign v fun current => restage_once n hchoice current es)

/-- The note is filled in from the expression, which is evaluated for it once. -/
theorem evaluated_per_trial_plugged : plugged.Reaches "note" [] [] ⟨⟨stringType, 5⟩, some (.text "dim")⟩ ∧
    ¬ stringType.Chooses ∧ calls 1 (InitEntry.operandsAll (dimmed 1)) = 1 ∧
    ((change "note" [] (.assign (dimmed 1))).run plugged).2.outcome = .ok none ∧
    evaluations 1 ((change "note" [] (.assign (dimmed 1))).run plugged).2.trace = 1 := by
  have hnote : plugged.Reaches "note" [] [] ⟨⟨stringType, 5⟩, some (.text "dim")⟩ := ⟨_, by rfl, by rfl⟩
  have hplain : ¬ stringType.Chooses := by
    rintro (⟨⟨⟩⟩ | ⟨⟨⟩, -⟩)
  have hok : ((change "note" [] (.assign (dimmed 1))).run plugged).2.outcome = .ok none := by rfl
  obtain ⟨-, -, honce⟩ := evaluated_per_trial hnote (dimmed 1) 1
  have hassign := honce hplain _ (.inr rfl)
  exact ⟨hnote, hplain, rfl, hok, Nat.le_antisymm hassign.most (hassign.least none hok)⟩

def blanked : List InitEntry := [⟨none, .operand (.expression ⟨1, stringType, .ok ⟨stringType, none⟩⟩)⟩]

/-- The plug holds a lamp. An expression in a list for it is evaluated for the flag of the lamp, which takes no
text, and evaluated again for the outlet: twice in a call that succeeds, and twice in one that fails, which logs
the violation both times. -/
theorem evaluated_twice : plugged.Reachable ∧ plugged.Reaches "plug" [] [] plug.holder ∧
    (∀ o ∈ InitEntry.operandsAll (dimmed 1) ++ InitEntry.operandsAll blanked, plugged.Offers o) ∧
    calls 1 (InitEntry.operandsAll (dimmed 1)) = 1 ∧ calls 1 (InitEntry.operandsAll blanked) = 1 ∧
    ((change "plug" [] (.assign (dimmed 1))).run plugged).2.outcome = .ok none ∧
    evaluations 1 ((change "plug" [] (.assign (dimmed 1))).run plugged).2.trace = 2 ∧
    evaluations 1 ((change "plug" [] (.assign blanked)).run plugged).2.trace = 2 ∧
    ((change "plug" [] (.assign blanked)).run plugged).2.trace =
      [.evaluated 1, .violation stringType.path .unconstructedOperand,
        .evaluated 1, .violation stringType.path .unconstructedOperand] := by
  have hplug : plugged.Reaches "plug" [] [] plug.holder := ⟨_, by rfl, by rfl⟩
  have hnote : plugged.values.get? "note" = some ⟨⟨stringType, 5⟩, some (.text "dim")⟩ := by rfl
  have hstring : plugged.space.type? 1 = some stringType := by rfl
  refine ⟨plugged_reachable, hplug, fun o ho => ?_, rfl, rfl, by rfl, by decide +kernel, by decide +kernel, by rfl⟩
  obtain rfl | rfl : o = .expression ⟨1, stringType, .ok ⟨stringType, some (.text "dim")⟩⟩ ∨
      o = .expression ⟨1, stringType, .ok ⟨stringType, none⟩⟩ := by
    simpa [dimmed, blanked, InitEntry.operandsAll, InitEntry.operands, Initializer.operands] using ho
  · rintro v ⟨⟩
    exact .part ⟨"note", _, [], hnote, rfl⟩
  · rintro v ⟨⟩
    exact .blank (.registered hstring)

end Session

end TypedValues
