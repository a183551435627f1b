import TypedValues.Proofs.Exchange

/-! Literals in a row. A list literal, and a list of the same literals in their order and without names, are
staged by functions of their own: one reads literals only, the other tries alternatives in attempts and takes
any operands. From two literals on they come to the same for every type. A lone literal may stand for the
whole of a value, and no literal at all asks for its default. -/

namespace TypedValues

def InitEntry.positional (ls : List Literal) : List InitEntry := ls.map fun l => ⟨none, .operand (.literal l)⟩

namespace InitEntry

@[simp] theorem length_positional (ls : List Literal) : (positional ls).length = ls.length := List.length_map _

@[simp] theorem hasNames_positional (ls : List Literal) : hasNames (positional ls) = false := by
  simp [hasNames, positional]

@[simp] theorem componentLiterals_positional (t : Ty) (ls : List Literal) :
    componentLiterals t (positional ls) = .ok ls := by
  induction ls with
  | nil => rfl
  | cons l ls ih => exact congrArg (fun rest => do return l :: (← rest)) ih

variable {ls : List Literal} (h : 2 ≤ ls.length)

include h

theorem settled?_positional (t : Ty) : settled? t (positional ls) = none :=
  settled?_of_many (by rwa [length_positional]) t

theorem peel_positional : peel (positional ls) = positional ls := peel_of_many (by rwa [length_positional])

end InitEntry

namespace Attempt

variable {α β γ δ : Type} {R : α → β → Prop} {S : γ → δ → Prop}

/-- Under either policy, the attempt ends as the result does, whatever events it has on the way. -/
def Follows (R : α → β → Prop) (x : Attempt Error α) (y : Except Error β) : Prop :=
  x.Agrees R (liftM y : Attempt Error β)

namespace Follows

variable {x : Attempt Error α} {y : Except Error β}

theorem pure {a : α} {b : β} (h : R a b) : Follows R (Pure.pure a) (Pure.pure b) := Agrees.pure h

theorem fail {e e' : Error} (h : e.category = e'.category) :
    Follows R (Attempt.fail e) (.error e') := Agrees.fail h

theorem ofExcept {x : Except Error α} (h : Except.Agrees R x y) : Follows R (liftM x) y := Agrees.ofExcept h

theorem bind (h : Follows R x y) {f : α → Attempt Error γ} {g : β → Except Error δ}
    (hf : ∀ a b, R a b → Follows S (f a) (g b)) : Follows S (x >>= f) (y >>= g) := by
  have hlift : (liftM (y >>= g) : Attempt Error δ) = liftM y >>= fun b => liftM (g b) := by
    cases y <;> rfl
  rw [Follows, hlift]
  exact Agrees.bind h hf

theorem under (h : Follows R x y) (site site' : Site) : Follows R (x.under site) (underSite site' y) := by
  have hlift : (liftM (underSite site' y) : Attempt Error β) = (liftM y : Attempt Error β).under site' := by
    cases y <;> rfl
  rw [Follows, hlift]
  exact Agrees.under h site site'

theorem eq_ok_iff {y : Except Error α} (h : Follows Eq x y) {p : Policy} {a : α} :
    (x.run p).outcome = .ok a ↔ y = .ok a := by
  have hp := h p
  generalize (x.run p).outcome = o at hp
  cases y with
  | ok b =>
    cases hp with
    | ok hab => simp [hab]
  | error e =>
    cases hp
    simp

theorem trial {y : Except Error α} (h : Follows Eq x y) :
    (x.trial : Attempt Error _).Gives y.toOption := by
  intro p
  have hp := h p
  simp only [Attempt.trial, Result.trial]
  generalize (x.run p).outcome = o at hp
  cases y with
  | ok a =>
    cases hp with
    | ok hab => rw [hab]; rfl
  | error e =>
    cases hp
    rfl

end Follows

end Attempt

def Initializer.Is (i : Initializer) (l : Literal) : Prop := i = .operand (.literal l)

theorem stage_literal_follows (t : Ty) (l : Literal) :
    Attempt.Follows Eq (do return (⟨t, ← stage t (Initializer.operand (.literal l)).input⟩ : Node Ty))
      (do return ⟨t, ← stageLiteral t l⟩) := by
  rw [Initializer.input, stage_whole]
  exact (Attempt.Follows.ofExcept (stageLiteral_agrees (.refl t) l)).bind fun c d hcd => .pure (by rw [hcd])

theorem attemptElements_follows {σ τ α : Type} {f : σ → Attempt Error α} {g : τ → Except Error α}
    {xs : List σ} {ys : List τ} (i : Nat) (h : List.Forall₂ (fun x y => Attempt.Follows Eq (f x) (g y)) xs ys) :
    Attempt.Follows Eq (attemptElements f i xs) (stageElements g i ys) := by
  induction h generalizing i with
  | nil => exact .pure rfl
  | cons hxy _ ih =>
    refine (hxy.under _ _).bind fun a b hab => ?_
    exact (ih (i + 1)).bind fun as bs hall => .pure (by rw [hab, hall])

theorem stageMembers_follows {ms : List Member} {slots : List (Option Initializer)}
    {literals : List (Option Literal)} (h : List.Forall₂ (Option.Rel Initializer.Is) slots literals) :
    Attempt.Follows Eq (stageMembers ms slots) (stageMemberLiterals ms literals) := by
  induction ms generalizing slots literals with
  | nil => exact .pure rfl
  | cons m ms ih =>
    rcases m with ⟨symbol, type, default⟩
    obtain ⟨hhead, htail⟩ := slots_head_tail h
    rw [stageMembers, stageMemberLiterals]
    refine Attempt.Follows.bind (R := Eq) (.under ?_ _ _) fun a b hab => ?_
    · generalize slots.head?.join = slot, literals.head?.join = literal at hhead
      cases hhead with
      | none => exact .ofExcept (defaultNode_agrees (.refl _))
      | some hi =>
        obtain rfl := hi
        exact stage_literal_follows type _
    · exact (ih htail).bind fun as bs hall => .pure (by rw [hab, hall])

theorem stageAlternatives_gives {us : List Ty} {i : Nat} {x : Input} {l : Literal}
    (h : ∀ u ∈ us, Attempt.Follows Eq (stage u x) (stageLiteral u l)) :
    (stageAlternatives us i x).Gives (stageAlternativeLiteral us i l) := by
  induction us generalizing i with
  | nil => exact Attempt.gives_pure none
  | cons u rest ih =>
    rw [List.forall_mem_cons] at h
    rw [stageAlternatives, stageAlternativeLiteral]
    refine h.1.trial.bind ?_
    cases stageLiteral u l with
    | ok c => exact Attempt.gives_pure _
    | error e => exact ih h.2

/-- A vector takes as many literals as it has components; a number takes no list. -/
theorem stageComponents_positional {α : Type} (t : Ty) (n : Nat) {f : Literal → Except Error α}
    {make : List α → Content Ty} {ls : List Literal} (hf : ∃ o, f (.list ls) = .error (.incompatible t.path o))
    (hstage : stageLiteral t (.list ls) = (do return make (← componentsOf t n f (.list ls)))) :
    Except.Agrees Eq (stageComponents t n (InitEntry.positional ls)) (stageLiteral t (.list ls)) := by
  unfold stageComponents
  simp only [InitEntry.length_positional, InitEntry.hasNames_positional, Bool.not_false, and_true,
    InitEntry.componentLiterals_positional]
  split
  next => exact stageLiteral_agrees (.refl t) _
  next hn =>
    rw [hstage, componentsOf]
    obtain ⟨o, ho⟩ := hf
    split
    · rw [ho]
      exact .error rfl (by simp [Error.dataAt, Error.category])
    · exact .dataAt ..

/-- Two literals or more are staged alike in a list of their own and as one literal. -/
theorem stage_positional (t : Ty) {ls : List Literal} (h : 2 ≤ ls.length) :
    Attempt.Follows Eq (stage t (.entries (InitEntry.positional ls))) (stageLiteral t (.list ls)) := by
  induction t using Ty.inductOn with
  | step t ih =>
    have hsettled := InitEntry.settled?_positional h t
    rcases t with ⟨identity, symbol, id, shape, attributes, aliased⟩
    rw [stage.eq_def]
    simp only [hsettled]
    cases shape with
    | bool => exact .fail rfl
    | string => exact .fail rfl
    | enum => exact .fail rfl
    | integral kind n => exact .ofExcept (stageComponents_positional _ n ⟨_, rfl⟩ (by rw [stageLiteral]))
    | real kind n => exact .ofExcept (stageComponents_positional _ n ⟨_, rfl⟩ (by rw [stageLiteral]))
    | optional argument =>
      cases argument with
      | none => exact .fail rfl
      | some inner =>
        exact (ih inner List.mem_cons_self).bind fun c d hcd => .pure (by rw [hcd])
    | variant alternatives =>
      rw [stageLiteral]
      have hgives : (stageAlternatives alternatives 0 (.entries (InitEntry.positional ls))).Gives
          (stageAlternativeLiteral alternatives 0 (.list ls)) := stageAlternatives_gives ih
      intro p
      rw [Attempt.run_bind, Result.andThen_of_ok (hgives p)]
      cases stageAlternativeLiteral alternatives 0 (.list ls) with
      | some c => exact .ok rfl
      | none => exact .error rfl
    | struct base members =>
      rw [stageLiteral]
      refine Attempt.Follows.bind (.ofExcept (memberSlots_agrees (R := Initializer.Is) _ _
        (List.forall₂_same.2 fun m _ => .refl m) ?_)) fun slots literals hslots => ?_
      · rw [InitEntry.positional, List.forall₂_map_left_iff, List.forall₂_map_left_iff,
          List.forall₂_map_right_iff]
        exact List.forall₂_same.2 fun l _ => ⟨rfl, rfl⟩
      · exact (stageMembers_follows hslots).bind fun as bs hall => .pure (by rw [hall])
    | array argument =>
      cases argument with
      | none => exact .fail rfl
      | some element =>
        rw [stageLiteral]
        simp only [InitEntry.hasNames_positional, Bool.false_eq_true, if_false]
        refine (attemptElements_follows 0 ?_).bind fun as bs hall => .pure (by rw [hall])
        rw [InitEntry.positional, List.forall₂_map_left_iff, List.forall₂_same]
        exact fun l _ => stage_literal_follows element l

theorem stageList_positional (t : Ty) {ls : List Literal} (h : 2 ≤ ls.length) :
    Attempt.Follows Eq (stageList t (InitEntry.positional ls)) (stageLiteral t (.list ls)) := by
  rw [stageList, Input.ofList, InitEntry.peel_positional h]
  exact stage_positional t h

/-- A list literal stands for the whole of any value. -/
theorem stageList_lone_list (t : Ty) (ls : List Literal) :
    stageList t (InitEntry.lone (.literal (.list ls))) = liftM (stageLiteral t (.list ls)) := by
  have hwhole : standsForWhole t (.literal (.list ls)) = true := by
    unfold standsForWhole
    split <;> rfl
  rw [stageList_lone_whole hwhole]
  rfl

namespace Session

/-- From two literals on, a list literal and a list of the literals are accepted by the same types, for equal
content; so it makes no difference which of them a value is made from or assigned. -/
theorem positional_alike {s : Session} (hs : s.Reachable) {ls : List Literal} (h : 2 ≤ ls.length) :
    (∀ t, s.Knows t → ∀ policy,
      ((∃ c, ((stageList t (InitEntry.positional ls)).run policy).outcome = .ok c) ↔
        ∃ d, stageLiteral t (.list ls) = .ok d) ∧
      ∀ c d, ((stageList t (InitEntry.positional ls)).run policy).outcome = .ok c →
        stageLiteral t (.list ls) = .ok d → c = d ∧ c.equals d = true) ∧
    s.ListsAlike (InitEntry.positional ls) (InitEntry.lone (.literal (.list ls))) := by
  obtain ⟨K, hK⟩ := hs.invariant
  refine ⟨fun t ht policy => ⟨?_, fun c d hc hd => ?_⟩, listsAlike_of_agrees hK fun t _ => ?_⟩
  · simp only [(stageList_positional t h).eq_ok_iff]
  · have hcd : c = d := by
      rw [(stageList_positional t h).eq_ok_iff, hd] at hc
      exact (Except.ok.inj hc).symm
    exact ⟨hcd, hcd ▸ (stageLiteral_typed hK.sound.catalog (hK.sound.knows ht) hd).fits.equals_self⟩
  · rw [stageList_lone_list]
    exact stageList_positional t h

-- one literal does not do: a flag takes it as its only initializer, and takes no list literal
example : ((stageList boolType (InitEntry.positional [.bool true])).run .report).outcome = .ok (.bool true) := by rfl

example : stageLiteral boolType (.list [.bool true]) = .error (.incompatible boolType.path (.literalKind .list)) := by
  rfl

def flags : List Literal := [.bool true, .bool false]

/-- Two flags for a row of shades: the tint takes no flag, so each goes to the second alternative. -/
theorem positional_alike_rowed : rowed.Reachable ∧ rowed.Knows shadesType ∧ 2 ≤ flags.length ∧ ∃ t,
    ((change "row" [] (.assign (InitEntry.positional flags))).run rowed).1 = t ∧
    ((change "row" [] (.assign (InitEntry.lone (.literal (.list flags))))).run rowed).1 = t ∧
    stageLiteral shadesType (.list flags) = .ok (.array
      [⟨shadeType, .variant 1 ⟨boolType, .bool true⟩⟩, ⟨shadeType, .variant 1 ⟨boolType, .bool false⟩⟩]) ∧
    ∃ c, ((stageList shadesType (InitEntry.positional flags)).run .report).outcome = .ok c := by
  have hshades : rowed.types.get? "shades" = some shadesType := by rfl
  have hknows : rowed.Knows shadesType := .kept hshades
  have hlength : 2 ≤ flags.length := le_rfl
  obtain ⟨hstages, halike⟩ := positional_alike rowed_reachable hlength
  have hliteral : stageLiteral shadesType (.list flags) = .ok (.array
      [⟨shadeType, .variant 1 ⟨boolType, .bool true⟩⟩, ⟨shadeType, .variant 1 ⟨boolType, .bool false⟩⟩]) := by rfl
  exact ⟨rowed_reachable, hknows, hlength, _, rfl, (halike.assign "row" []).session.symm, hliteral,
    (hstages shadesType hknows .report).1.2 ⟨_, hliteral⟩⟩

end Session

end TypedValues
