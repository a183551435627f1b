import TypedValues.Proofs.Likeness

/-! Operands that stand for the same value. An item, a value that holds the item, and an expression that gives
this value each time are staged by three routes, and only two of them may stand for a whole struct or array.
No type tells them apart, wherever in a list they are. -/

namespace TypedValues

/-- The second operand stands for the value of the first one: a value of the item's type that holds the item,
or a constant expression over the value. -/
inductive Operand.Exchanged : Operand → Operand → Prop where
  | same (o : Operand) : Exchanged o o
  | item {r : ItemRef} {v : Snapshot} (type : v.type.compatible r.type = true)
      (content : v.content = some (.item r.index)) : Exchanged (.item r) (.value v)
  | value {v : Snapshot} {number : Nat} {e : Expression} (h : Expression.constant number v = .ok e) :
      Exchanged (.value v) (.expression e)

theorem Expression.constant_eq_ok {number : Nat} {v : Snapshot} {e : Expression}
    (h : constant number v = .ok e) : e = ⟨number, v.type, .ok v⟩ := by
  unfold constant at h
  split at h <;> cases h
  rfl

variable {K : Set Ty} {next : Nat}

namespace Operand

/-- An item stands for no struct and no array, and neither does a value that holds one. -/
theorem standsForWhole_item (hK : Catalog K next) {t : Ty} (ht : t ∈ K) {r : ItemRef} (hr : r.Typed K)
    {v : Snapshot} (htype : v.type.compatible r.type = true) :
    standsForWhole t (.item r) = standsForWhole t (.value v) := by
  unfold standsForWhole
  have apart (h : ∀ e, t.shape ≠ .enum e) : v.type.compatible t = false := by
    by_contra hcompat
    have hfits := hK.fits hr.type ht
      (Ty.compatible_trans (Ty.compatible_symm htype) (Bool.of_not_eq_false hcompat)) hr.fits
    cases hfits with
    | item hs => exact h _ hs
  split
  next hs => exact (apart fun e he => by rw [hs] at he; cases he).symm
  next hs => exact (apart fun e he => by rw [hs] at he; cases he).symm
  next => rfl

theorem standsForWhole_constant (t : Ty) (v : Snapshot) (number : Nat) :
    standsForWhole t (.value v) = standsForWhole t (.expression ⟨number, v.type, .ok v⟩) := by
  unfold standsForWhole
  split <;> rfl

theorem stageOperand_constant {t u : Ty} (htu : t.Mirrors u) (v : Snapshot) (number : Nat) :
    Attempt.Agrees Eq (stageOperand t (.value v)) (stageOperand u (.expression ⟨number, v.type, .ok v⟩)) := by
  have hevaluate : Attempt.Agrees Eq (pure v : Attempt Error Snapshot) (evaluate ⟨number, v.type, .ok v⟩) :=
    .of_gives (Attempt.gives_pure v) (evaluate_gives rfl) rfl
  have hstage : Attempt.Agrees Eq (pure v >>= stageSnapshot t)
      (stageOperand u (.expression ⟨number, v.type, .ok v⟩)) :=
    hevaluate.bind fun a _ hab => hab ▸ stageOperand_agrees_self Content.congruence_eq htu (.value a)
  rwa [pure_bind] at hstage

/-- No type of the catalog tells the operands apart. -/
theorem interchange_exchanged (hK : Catalog K next) :
    Interchange K Eq fun o o' => o.Exchanged o' ∧ o.Typed K where
  component ht hu := hK.component_mem ht hu
  congruence := Content.congruence_eq
  literal h l := by
    obtain ⟨h, -⟩ := h
    cases h <;> simp
  whole := by
    rintro o o' ⟨h, ho⟩ t u ht htu
    have hself : standsForWhole t o = standsForWhole u o := standsForWhole_of_matches htu (.same o)
    cases h with
    | same => exact hself
    | item htype =>
      rw [standsForWhole_item hK ht ho htype]
      exact standsForWhole_of_matches htu (.same _)
    | value h =>
      obtain rfl := Expression.constant_eq_ok h
      rw [hself, standsForWhole_constant]
  stages := by
    rintro o o' ⟨h, -⟩ t u - htu
    cases h with
    | same => exact stageOperand_agrees_self Content.congruence_eq htu _
    | @item r v htype hcontent =>
      rcases v with ⟨a, _⟩
      cases hcontent
      exact .ofExcept (stageTyped_agrees Content.congruence_eq htu (Ty.compatible_symm htype) rfl _ _)
    | value h =>
      obtain rfl := Expression.constant_eq_ok h
      exact stageOperand_constant htu _ _

end Operand

mutual

theorem Initializer.Related.restrict {R : Operand → Operand → Prop} {P : Operand → Prop} :
    ∀ {i i' : Initializer}, i.Related R i' → (∀ o ∈ i.operands, P o) →
      i.Related (fun o o' => R o o' ∧ P o) i'
  | .operand _, _, .operand h, hP => .operand ⟨h, hP _ List.mem_cons_self⟩
  | .list _, _, .list h, hP => .list (InitEntry.AllRelated.restrict h hP)

theorem InitEntry.AllRelated.restrict {R : Operand → Operand → Prop} {P : Operand → Prop} :
    ∀ {es es' : List InitEntry}, InitEntry.AllRelated R es es' → (∀ o ∈ InitEntry.operandsAll es, P o) →
      InitEntry.AllRelated (fun o o' => R o o' ∧ P o) es es'
  | [], _, .nil, _ => .nil
  | ⟨_, _⟩ :: _, _, .cons h rest, hP =>
    .cons (Initializer.Related.restrict h fun o ho => hP o (List.mem_append_left _ ho))
      (InitEntry.AllRelated.restrict rest fun o ho => hP o (List.mem_append_right _ ho))

end

namespace Session

/-- Exchanging operands for others that stand for the same value, anywhere in a list, makes no difference to
what is constructed or assigned from the list, to any value. -/
theorem exchange_alike {s : Session} (hs : s.Reachable) {es es' : List InitEntry}
    (hes : InitEntry.AllRelated Operand.Exchanged es es') (ho : ∀ o ∈ InitEntry.operandsAll es, s.Offers o) :
    s.ListsAlike es es' := by
  obtain ⟨K, hK⟩ := hs.invariant
  have htyped := hes.restrict fun o hmem => hK.sound.offers (ho o hmem)
  exact listsAlike_of_agrees hK fun t ht =>
    stageList_related (Operand.interchange_exchanged hK.sound.catalog) ht (.refl t) htyped

/-- A hue and an empty row of shades. -/
def shades : Definition :=
  { Definition.fresh "shades" (.array none) with shape := .array (some shadeType) }

def shadesType : Ty := shades.withIdentity (lit.nextIdentity + 3)

def warm : Snapshot := ⟨tintType, some (.item 0)⟩

def rowed : Session :=
  let hued := ((change "hue" [] (.construct [⟨none, .operand (.item ⟨tintType, 0⟩)⟩])).run
    (shaded.create "hue" tintType)).1
  ((change "row" [] (.construct [])).run
    (((sealType "shades" shades "shades").run hued).1.create "row" shadesType)).1

theorem rowed_reachable : rowed.Reachable := by
  have htint : shaded.types.get? "tint" = some tintType := by rfl
  have hhued : (((change "hue" [] (.construct [⟨none, .operand (.item ⟨tintType, 0⟩)⟩])).run
      (shaded.create "hue" tintType)).1).Reachable := by
    refine shaded_reachable.make (.kept htint) "hue" _ fun o ho => ?_
    obtain rfl := List.mem_singleton.1 ho
    have htint' : (shaded.create "hue" tintType).types.get? "tint" = some tintType := by rfl
    exact ⟨.kept htint', rfl⟩
  generalize hrun : ((change "hue" [] (.construct [⟨none, .operand (.item ⟨tintType, 0⟩)⟩])).run
    (shaded.create "hue" tintType)).1 = hued at hhued
  have hshade : hued.types.get? "shade" = some shadeType := by subst hrun; rfl
  have hbuilds : hued.Builds shades :=
    builds_template "shades" (.array none) rfl [shadeType] (by simpa using .kept hshade) (by subst hrun; rfl)
  have hshades : ((sealType "shades" shades "shades").run hued).1.types.get? "shades" = some shadesType := by
    subst hrun; rfl
  have hmade := (hhued.sealType hbuilds "shades").make (.kept hshades) "row" (.construct []) fun o ho => by cases ho
  subst hrun
  exact hmade

def shadeList : List InitEntry :=
  [⟨none, .operand (.item ⟨tintType, 0⟩)⟩, ⟨none, .operand (.value warm)⟩]

def exchangedList : List InitEntry :=
  [⟨none, .operand (.value warm)⟩, ⟨none, .operand (.expression ⟨1, tintType, .ok warm⟩)⟩]

/-- The row is assigned two shades, each of which takes the tint as its first alternative. -/
theorem exchange_alike_rowed : rowed.Reachable ∧
    InitEntry.AllRelated Operand.Exchanged shadeList exchangedList ∧
    (∀ o ∈ InitEntry.operandsAll shadeList, rowed.Offers o) ∧ ∃ t,
      ((change "row" [] (.assign shadeList)).run rowed).1 = t ∧
      ((change "row" [] (.assign exchangedList)).run rowed).1 = t ∧
      ((change "row" [] (.assign exchangedList)).run rowed).2.outcome = .ok none ∧
      (t.values.get? "row").map (·.content.map (·.relabel HasType.type)) = some (some (.array
        [⟨shadeType, .variant 0 ⟨tintType, .item 0⟩⟩, ⟨shadeType, .variant 0 ⟨tintType, .item 0⟩⟩])) := by
  have hlists : InitEntry.AllRelated Operand.Exchanged shadeList exchangedList :=
    .cons (.operand (.item (Ty.compatible_refl _) rfl)) (.cons (.operand (.value rfl)) .nil)
  have htint : rowed.types.get? "tint" = some tintType := by rfl
  have hhue : rowed.values.get? "hue" = some ⟨⟨tintType, 2⟩, some (.item 0)⟩ := by rfl
  have hoffers : ∀ o ∈ InitEntry.operandsAll shadeList, rowed.Offers o := by
    have hitem : rowed.Offers (.item ⟨tintType, 0⟩) := ⟨.kept htint, rfl⟩
    have hvalue : rowed.Offers (.value warm) := .part ⟨"hue", _, [], hhue, rfl⟩
    exact List.forall_mem_cons.2 ⟨hitem, List.forall_mem_cons.2 ⟨hvalue, fun o ho => by cases ho⟩⟩
  have halike := (exchange_alike rowed_reachable hlists hoffers).assign "row" []
  exact ⟨rowed_reachable, hlists, hoffers, _, rfl, halike.session.symm, by rfl, by rfl⟩

end Session

end TypedValues
