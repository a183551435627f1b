import TypedValues.Proofs.Staging

/-! What a change does to a value, before it does it. The edit staged for a change fits the content
that is there, and what it puts into the value is typed, whatever the route it came by. -/

namespace TypedValues

variable {α : Type} [HasType α] {K : Set Ty} {next : Nat}

theorem stageList_typed (hK : Catalog K next) {t : Ty} (ht : t ∈ K) {es : List InitEntry}
    (ho : ∀ o ∈ InitEntry.operandsAll es, o.Typed K) : (stageList t es).Ensures (Content.Typed K t) :=
  stage_typed hK ht (by rwa [Input.operands_ofList])

/-- The active alternative is one of the type's, so its content is typed for the type. -/
theorem restage_typed {β : Type} (hK : Catalog K next) {t : Ty} (ht : t ∈ K) (current : Content β)
    {es : List InitEntry} (ho : ∀ o ∈ InitEntry.operandsAll es, o.Typed K) :
    (restage t current es).Ensures (Content.Typed K t) := by
  have all := stageList_typed hK ht ho
  unfold restage
  split
  next alternatives active inner hs =>
    split
    next u hu =>
      have hmem : u ∈ K := hK.argument_mem ht (by rw [hs]; exact List.mem_of_getElem? hu)
      refine (stageList_typed hK hmem ho).trial.bind fun found hfound => ?_
      cases found with
      | some c =>
        exact Attempt.ensures_pure (.variant hs hu (Node.suits_mk hmem (hfound c rfl)))
      | none => exact all
    next => exact all
  next => exact all

theorem decodeScalar_typed (hK : Catalog K next) {t : Ty} (ht : t ∈ K) {d : Document}
    {c : Content Ty} (h : decodeScalar t d = .ok c) : c.Typed K t := by
  unfold decodeScalar at h
  split at h
  next => exact stageLiteral_typed hK ht h
  next => cases h

theorem decodeAlternative_suits {t : Ty} {alternatives : List Ty} {i : Nat} {d : Document}
    (h : ∀ u ∈ alternatives, u ∈ K ∧ (decode u d).Ensures (Content.Typed K u)) :
    (decodeAlternative t alternatives i d).Ensures fun n =>
      ∃ u, alternatives[i]? = some u ∧ n.Suits K u := by
  induction alternatives generalizing i with
  | nil => rw [decodeAlternative]; exact Attempt.ensures_fail _
  | cons a rest ih =>
    rw [List.forall_mem_cons] at h
    cases i with
    | zero =>
      rw [decodeAlternative]
      exact h.1.2.bind fun c hc => Attempt.ensures_pure ⟨a, rfl, Node.suits_mk h.1.1 hc⟩
    | succ i => rw [decodeAlternative]; exact ih h.2

theorem decodeMembers_suits {ms : List Member} {fields : List Field} (hmem : ∀ m ∈ ms, m.type ∈ K)
    (hdefault : ∀ m ∈ ms, ∀ n, m.defaultNode = .ok n → n.Suits K m.type)
    (ih : ∀ m ∈ ms, ∀ d, (decode m.type d).Ensures (Content.Typed K m.type)) :
    (decodeMembers ms fields).Ensures fun ns =>
      List.Forall₂ (fun n m => n.Suits K m.type) ns ms := by
  induction ms with
  | nil => exact Attempt.ensures_pure .nil
  | cons m ms ihms =>
    simp only [List.forall_mem_cons] at hmem hdefault ih
    rcases m with ⟨symbol, type, default⟩
    rw [decodeMembers]
    refine Attempt.Ensures.bind (P := fun n => n.Suits K type) (.under ?_ _) fun n hn =>
      (ihms hmem.2 hdefault.2 ih.2).bind fun ns hns => Attempt.ensures_pure (.cons hn hns)
    split
    next d _ => exact (ih.1 d).bind fun c hc => Attempt.ensures_pure (Node.suits_mk hmem.1 hc)
    next => exact Attempt.ensures_ofExcept hdefault.1

theorem decodeItem_typed {t : Ty} {e : EnumDef} (hs : t.shape = .enum e) {d : Document} {c : Content Ty}
    (h : decodeItem t e d = .ok c) : c.Typed K t := by
  cases d with
  | text name =>
    rw [decodeItem] at h
    split at h
    next i hi => cases h; exact .leaf (.item hs (EnumDef.find?_lt hi)) rfl
    next => cases h
  | _ => cases h

/-- What is read from a document for a type fits it, whatever the document. -/
theorem decode_typed (hK : Catalog K next) {t : Ty} (ht : t ∈ K) (d : Document) :
    (decode t d).Ensures (Content.Typed K t) := by
  induction t using Ty.inductOn generalizing d with
  | step t ih =>
    have part {u : Ty} (hu : u ∈ t.shape.components) (d : Document) : (decode u d).Ensures (Content.Typed K u) :=
      ih u hu (hK.component_mem ht hu) d
    have child {u : Ty} (hu : u ∈ t.shape.components) (d : Document) :
        (decode u d).Ensures fun c => (⟨u, c⟩ : Node Ty).Suits K u :=
      fun p c hc => Node.suits_mk (hK.component_mem ht hu) (part hu d p c hc)
    have hcase := decode_cases t d
    generalize decode t d = x at hcase ⊢
    cases hcase with
    | scalar hs d => exact Attempt.ensures_ofExcept fun c hc => decodeScalar_typed hK ht hc
    | item hs d => exact Attempt.ensures_ofExcept fun c hc => decodeItem_typed hs hc
    | null hs =>
      obtain ⟨u, rfl⟩ := hK.optional_argument ht hs
      exact Attempt.ensures_pure (.leaf (.empty hs) rfl)
    | optional hs hd =>
      exact (child (Ty.component_optional hs) _).bind fun c hc => Attempt.ensures_pure (.optional hs hc)
    | variant hs fields =>
      have alternative (d : Document) (u : Ty) (hu : u ∈ _) : u ∈ K ∧ (decode u d).Ensures (Content.Typed K u) :=
        have hmem := Ty.component_variant hs hu
        ⟨hK.component_mem ht hmem, part hmem d⟩
      refine (Attempt.ensures_true _).bind fun p _ => (decodeAlternative_suits (alternative p.2)).bind ?_
      rintro n ⟨u, hu, hn⟩
      exact Attempt.ensures_pure (.variant hs hu hn)
    | struct hs fields =>
      obtain ⟨hmem, hdefault⟩ := hK.members_suit ht hs
      refine (Attempt.ensures_true _).bind fun _ _ => ?_
      exact (decodeMembers_suits hmem hdefault fun m hm => part (Ty.component_struct hs hm)).bind fun ns hns =>
        Attempt.ensures_pure (.struct hs hns)
    | @array u hs ds =>
      refine (attemptElements_ensures (P := fun n => n.Suits K u) fun d _ => ?_).bind fun ns hns =>
        Attempt.ensures_pure (.array hs hns)
      exact (child (Ty.component_array hs) d).bind fun c hc => Attempt.ensures_pure hc
    | uninstantiated => exact Attempt.ensures_fail _
    | unexpected => exact Attempt.ensures_ofExcept fun c hc => by cases hc

namespace Edit

/-- The edit can be carried out on what the value holds. -/
def Applies (current : Option (Content α)) : Edit → Prop
  | install _ => current = none
  | replace _ | keep => current.isSome
  | insert i _ => ∃ elements, current = some (.array elements) ∧ i ≤ elements.length
  | remove i => ∃ elements, current = some (.array elements) ∧ i < elements.length

/-- The edit puts nothing into a value of type `t` that does not belong there. -/
def Typed (K : Set Ty) (t : Ty) : Edit → Prop
  | install c | replace c => c.Typed K t
  | insert _ element => ∃ u, t.shape = .array (some u) ∧ element.Suits K u
  | remove _ | keep => True

def movesElements : Edit → Bool
  | insert .. | remove _ => true
  | install _ | replace _ | keep => false

end Edit

namespace Change

def operands : Change → List Operand
  | construct es | assign es => InitEntry.operandsAll es
  | copyConstruct v | copyAssign v => [.value v]
  | _ => []

def movesElements : Change → Bool
  | pushDefault | insertDefault _ | remove _ => true
  | _ => false

end Change

namespace Holder

theorem constructed_ensures (h : Holder α) : h.constructed.Ensures fun c => h.content = some c := by
  unfold constructed
  split
  next c hc => exact Attempt.ensures_pure hc
  next => exact Attempt.ensures_violate _ _

theorem elements_ensures (h : Holder α) :
    h.elements.Ensures fun es => h.content = some (.array es) := by
  refine h.constructed_ensures.bind fun c hc => ?_
  split
  next es => exact Attempt.ensures_pure hc
  next => exact Attempt.ensures_fail _

theorem ensureUnconstructed_ensures (h : Holder α) :
    h.ensureUnconstructed.Ensures fun _ => h.content = none := by
  unfold ensureUnconstructed
  split
  next => exact Attempt.ensures_violate _ _
  next hc => exact Attempt.ensures_pure (by simpa [isConstructed] using hc)

theorem elementType_ensures (h : Holder α) (o : Operation) :
    (h.elementType o).Ensures fun u => h.type.shape = .array (some u) := by
  unfold elementType
  split
  next u hu => exact Attempt.ensures_pure hu
  next => exact Attempt.ensures_fail _

theorem stageInsert_ensures (h : Holder α) (index : Nat) :
    (h.stageInsert index).Ensures fun e => ∃ u c es, h.type.shape = .array (some u) ∧
      defaultContent u = .ok c ∧ e = .insert index ⟨u, c⟩ ∧ h.content = some (.array es) ∧
      index ≤ es.length := by
  refine h.elements_ensures.bind fun es hes => ?_
  simp only
  split
  next => exact Attempt.ensures_fail_bind _ _
  next hle =>
    refine (h.elementType_ensures _).bind fun u hu => ?_
    refine (Attempt.ensures_ofExcept fun c hc => hc).bind fun c hc => Attempt.ensures_pure ?_
    exact ⟨u, c, es, hu, hc, rfl, hes, Nat.le_of_not_lt hle⟩

theorem stageCopy_typed (hK : Catalog K next) {h : Holder α} (ht : h.type ∈ K) {other : Snapshot}
    (ho : other.Typed K) : (h.stageCopy other).Ensures (Content.Typed K h.type) := by
  unfold stageCopy
  split
  next => exact Attempt.ensures_violate _ _
  next c hc =>
    split
    next hcompat =>
      exact Attempt.ensures_pure
        ((ho.content c hc).of_compatible hK ho.type ht (Ty.compatible_symm hcompat))
    next => exact Attempt.ensures_fail _

theorem stageAlternative_ensures (h : Holder α) (index : Nat) :
    (h.stageAlternative index).Ensures fun e =>
      (∃ active inner, h.content = some (.variant active inner)) ∧ (e = .keep ∨
        ∃ u c, h.type.shape.arguments[index]? = some u ∧ defaultContent u = .ok c ∧
          e = .replace (.variant index ⟨u, c⟩)) := by
  refine h.constructed_ensures.bind fun current hcurrent => ?_
  split
  next active inner =>
    split
    next => exact Attempt.ensures_pure ⟨⟨active, inner, hcurrent⟩, .inl rfl⟩
    next =>
      split
      next u hu =>
        refine (Attempt.ensures_ofExcept fun c hc => hc).bind fun c hc => Attempt.ensures_pure ?_
        exact ⟨⟨active, inner, hcurrent⟩, .inr ⟨u, c, hu, hc, rfl⟩⟩
      next => exact Attempt.ensures_fail _
  next => exact Attempt.ensures_fail _

/-- Staging checks that the edit can be carried out, so that carrying it out cannot fail. -/
theorem stageChange_applies (h : Holder α) (c : Change) :
    (h.stageChange c).Ensures fun r =>
      r.1.Applies h.content ∧ r.1.movesElements = c.movesElements := by
  have replaces {x : Attempt Error (Content Ty)} : (do
      let _ ← h.constructed
      return (.replace (← x), none) : Attempt Error (Edit × Option Nat)).Ensures fun r =>
        r.1.Applies h.content ∧ r.1.movesElements = false :=
    h.constructed_ensures.bind fun _ hc => (Attempt.ensures_true _).bind fun _ _ =>
      Attempt.ensures_pure ⟨by rw [hc]; rfl, rfl⟩
  have inserts {index : Nat} {position : Option Nat} : (do
      return (← h.stageInsert index, position) : Attempt Error (Edit × Option Nat)).Ensures fun r =>
        r.1.Applies h.content ∧ r.1.movesElements = true := by
    refine (h.stageInsert_ensures index).bind fun e he => Attempt.ensures_pure ?_
    obtain ⟨u, c, es, -, -, rfl, hes, hle⟩ := he
    exact ⟨⟨es, hes, hle⟩, rfl⟩
  cases c with
  | construct es =>
    exact h.ensureUnconstructed_ensures.bind fun _ hc => (Attempt.ensures_true _).bind fun _ _ =>
      Attempt.ensures_pure ⟨hc, rfl⟩
  | copyConstruct v =>
    exact h.ensureUnconstructed_ensures.bind fun _ hc => (Attempt.ensures_true _).bind fun _ _ =>
      Attempt.ensures_pure ⟨hc, rfl⟩
  | assign es =>
    exact h.constructed_ensures.bind fun c hc => (Attempt.ensures_true _).bind fun _ _ =>
      Attempt.ensures_pure ⟨by rw [hc]; rfl, rfl⟩
  | copyAssign v => exact replaces
  | deserialize d => exact replaces
  | parseUi text => exact replaces
  | pushDefault => exact h.elements_ensures.bind fun _ _ => inserts
  | insertDefault index => exact inserts
  | remove index =>
    refine h.elements_ensures.bind fun es hes => ?_
    simp only
    split
    next => exact Attempt.ensures_fail_bind _ _
    next hlt => exact Attempt.ensures_pure ⟨⟨es, hes, Nat.lt_of_not_le hlt⟩, rfl⟩
  | setActiveAlternative index =>
    refine (h.stageAlternative_ensures index).bind fun e he => Attempt.ensures_pure ?_
    obtain ⟨⟨active, inner, hc⟩, rfl | ⟨u, c, -, -, rfl⟩⟩ := he <;> exact ⟨by rw [hc]; rfl, rfl⟩

/-- The edit of a change is typed if the operands of the change are. -/
theorem stageChange_typed (hK : Catalog K next) {h : Holder α} (hh : h.Typed K) {c : Change}
    (ho : ∀ o ∈ c.operands, o.Typed K) :
    (h.stageChange c).Ensures fun r => r.1.Typed K h.type := by
  have ht := hh.type
  have inserts {index : Nat} {position : Option Nat} : (do
      return (← h.stageInsert index, position) : Attempt Error (Edit × Option Nat)).Ensures fun r =>
        r.1.Typed K h.type := by
    refine (h.stageInsert_ensures index).bind fun e he => Attempt.ensures_pure ?_
    obtain ⟨u, c, es, hu, hc, rfl, -, -⟩ := he
    have hmem : u ∈ K := hK.argument_mem ht (by rw [hu]; exact List.mem_cons_self)
    exact ⟨u, hu, Node.suits_mk hmem (defaultContent_typed hK hmem hc)⟩
  cases c with
  | construct es =>
    exact (Attempt.ensures_true _).bind fun _ _ => (stageList_typed hK ht ho).bind fun c hc =>
      Attempt.ensures_pure hc
  | copyConstruct v =>
    exact (Attempt.ensures_true _).bind fun _ _ =>
      (stageCopy_typed hK ht (ho (.value v) List.mem_cons_self)).bind fun c hc =>
        Attempt.ensures_pure hc
  | assign es =>
    exact (Attempt.ensures_true _).bind fun current _ =>
      (restage_typed hK ht current ho).bind fun c hc => Attempt.ensures_pure hc
  | copyAssign v =>
    exact (Attempt.ensures_true _).bind fun _ _ =>
      (stageCopy_typed hK ht (ho (.value v) List.mem_cons_self)).bind fun c hc =>
        Attempt.ensures_pure hc
  | deserialize d =>
    exact (Attempt.ensures_true _).bind fun _ _ => (decode_typed hK ht d).bind fun c hc =>
      Attempt.ensures_pure hc
  | parseUi text =>
    exact (Attempt.ensures_true _).bind fun _ _ =>
      (Attempt.ensures_ofExcept fun c hc => read_typed hK ht hc).bind fun c hc =>
        Attempt.ensures_pure hc
  | pushDefault => exact (Attempt.ensures_true _).bind fun _ _ => inserts
  | insertDefault index => exact inserts
  | remove index =>
    refine (Attempt.ensures_true _).bind fun es _ => ?_
    simp only
    split
    next => exact Attempt.ensures_fail_bind _ _
    next => exact Attempt.ensures_pure trivial
  | setActiveAlternative index =>
    refine (h.stageAlternative_ensures index).bind fun e he => Attempt.ensures_pure ?_
    obtain ⟨⟨active, inner, hcontent⟩, rfl | ⟨u, c, hu, hc, rfl⟩⟩ := he
    · exact trivial
    · have hmem : u ∈ K := hK.argument_mem ht (List.mem_of_getElem? hu)
      cases (hh.content _ hcontent).fits with
      | variant hs _ _ _ =>
        rw [hs] at hu
        exact .variant hs hu (Node.suits_mk hmem (defaultContent_typed hK hmem hc))

end Holder

end TypedValues
