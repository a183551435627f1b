import TypedValues.Proofs.Typed
import TypedValues.Value.Change

/-! Staging gives typed content. Whatever the route (operands, lists, documents, texts, defaults), the
edit that a change makes of a value holds content that fits the value's type, as long as the operands
it was given are typed themselves. -/

namespace TypedValues

mutual

def Initializer.operands : Initializer → List Operand
  | .operand o => [o]
  | .list entries => InitEntry.operandsAll entries

def InitEntry.operands : InitEntry → List Operand
  | ⟨_, i⟩ => i.operands

def InitEntry.operandsAll : List InitEntry → List Operand
  | [] => []
  | e :: es => e.operands ++ InitEntry.operandsAll es

end

def Input.operands : Input → List Operand
  | .whole o => [o]
  | .entries es => InitEntry.operandsAll es

namespace InitEntry

theorem operands_eq (e : InitEntry) : e.operands = e.initializer.operands := by
  rcases e with ⟨name, i⟩; rw [operands]

theorem operandsAll_eq (es : List InitEntry) :
    operandsAll es = es.flatMap fun e => e.initializer.operands := by
  induction es with
  | nil => rw [operandsAll]; rfl
  | cons e es ih => rw [operandsAll, ih, operands_eq, List.flatMap_cons]

end InitEntry

mutual

/-- Brackets hold no operands of their own. -/
theorem operandsAll_peel : ∀ es : List InitEntry,
    InitEntry.operandsAll (peel es) = InitEntry.operandsAll es
  | [] => rfl
  | [e] => by
    rw [peel, operandsAll_peelEntry e]
    simp [InitEntry.operandsAll]
  | _ :: _ :: _ => by rw [peel]; simp

theorem operandsAll_peelEntry : ∀ e : InitEntry, InitEntry.operandsAll (peelEntry e) = e.operands
  | ⟨none, i⟩ => by rw [peelEntry, operandsAll_peelOnly i, InitEntry.operands_eq]
  | ⟨some _, i⟩ => by simp [peelEntry, InitEntry.operandsAll]

theorem operandsAll_peelOnly : ∀ i : Initializer, InitEntry.operandsAll (peelOnly i) = i.operands
  | .operand o => by simp [peelOnly, InitEntry.operandsAll, InitEntry.operands, Initializer.operands]
  | .list inner => by rw [peelOnly, operandsAll_peel inner, Initializer.operands]

end

theorem Input.operands_ofList (es : List InitEntry) :
    (Input.ofList es).operands = InitEntry.operandsAll es := operandsAll_peel es

theorem Initializer.operands_input (i : Initializer) : i.input.operands = i.operands := by
  cases i with
  | operand o => simp [Initializer.input, Input.operands, Initializer.operands]
  | list es => rw [Initializer.input, Input.operands_ofList, Initializer.operands]

@[simp] theorem Input.operands_lone (name : Option String) (o : Operand) :
    (Input.entries [⟨name, .operand o⟩]).operands = [o] := rfl

theorem Input.forall_operands_entries {P : Operand → Prop} {es : List InitEntry} :
    (∀ o ∈ (Input.entries es).operands, P o) ↔ ∀ e ∈ es, ∀ o ∈ e.initializer.input.operands, P o := by
  have hoperands : (Input.entries es).operands = es.flatMap fun e => e.initializer.input.operands := by
    simp only [Initializer.operands_input]
    exact InitEntry.operandsAll_eq es
  rw [hoperands, List.forall_mem_flatMap]

variable {α : Type} [HasType α] {K : Set Ty} {next : Nat}

/-- A value of a type of the catalog, whose content is typed if it has any. -/
structure Holder.Typed (K : Set Ty) (h : Holder α) : Prop where
  type : h.type ∈ K
  content : ∀ c, h.content = some c → c.Typed K h.type

structure ItemRef.Typed (K : Set Ty) (r : ItemRef) : Prop where
  type : r.type ∈ K
  fits : (Content.item r.index : Content Ty).Fits r.type

def Operand.Typed (K : Set Ty) : Operand → Prop
  | .literal _ => True
  | .value v => v.Typed K
  | .item r => r.Typed K
  | .expression e => ∀ v, e.outcome = .ok v → v.Typed K

/-- A typed value goes into a type that it is compatible with, or into an argument of the type. -/
theorem stageTyped_cases {t source : Ty} {content c : Content Ty} {offer : Offer}
    (h : stageTyped t source content offer = .ok c) :
    (source.compatible t = true ∧ c = content) ∨
      (∃ u, t.shape = .optional (some u) ∧ source.compatible u = true ∧ c = .optional (some ⟨u, content⟩)) ∨
      ∃ us i u, t.shape = .variant us ∧ us[i]? = some u ∧ source.compatible u = true ∧
        c = .variant i ⟨u, content⟩ := by
  unfold stageTyped at h
  split at h
  next hcompat => cases h; exact .inl ⟨hcompat, rfl⟩
  next =>
    split at h
    next u hs =>
      split at h
      next hcompat => cases h; exact .inr (.inl ⟨u, hs, hcompat, rfl⟩)
      next => cases h
    next us hs =>
      split at h
      next i hi =>
        split at h
        next u hu =>
          cases h
          have hcompat : u.compatible source = true := by
            obtain ⟨hlt, hget, -⟩ := List.findIdx?_eq_some_iff_getElem.1 hi
            rw [List.getElem?_eq_getElem hlt, Option.some.injEq] at hu
            exact hu ▸ hget
          exact .inr (.inr ⟨us, i, u, hs, hu, Ty.compatible_symm hcompat, rfl⟩)
        next => cases h
      next => cases h
    next => cases h

theorem stageTyped_typed (hK : Catalog K next) {t source : Ty} (ht : t ∈ K) (hsource : source ∈ K)
    {content : Content Ty} (hcontent : content.Typed K source) {offer : Offer} {c : Content Ty}
    (h : stageTyped t source content offer = .ok c) : c.Typed K t := by
  have suits {u : Ty} (hu : u ∈ t.shape.arguments) (hcompat : source.compatible u = true) :
      (⟨u, content⟩ : Node Ty).Suits K u :=
    Node.suits_mk (hK.argument_mem ht hu)
      (hcontent.of_compatible hK hsource (hK.argument_mem ht hu) hcompat)
  rcases stageTyped_cases h with ⟨hcompat, rfl⟩ | ⟨u, hs, hcompat, rfl⟩ | ⟨us, i, u, hs, hu, hcompat, rfl⟩
  · exact hcontent.of_compatible hK hsource ht hcompat
  · exact .optional hs (suits (by rw [hs]; exact List.mem_cons_self) hcompat)
  · exact .variant hs hu (suits (by rw [hs]; exact List.mem_of_getElem? hu) hcompat)

theorem stageSnapshot_typed (hK : Catalog K next) {t : Ty} (ht : t ∈ K) {v : Snapshot}
    (hv : v.Typed K) : (stageSnapshot t v).Ensures (Content.Typed K t) := by
  unfold stageSnapshot
  split
  next => exact Attempt.ensures_violate _ _
  next content hcontent =>
    exact Attempt.ensures_ofExcept fun c hc => stageTyped_typed hK ht hv.type (hv.content _ hcontent) hc

theorem stageOperand_typed (hK : Catalog K next) {t : Ty} (ht : t ∈ K) {o : Operand}
    (ho : o.Typed K) : (stageOperand t o).Ensures (Content.Typed K t) := by
  cases o with
  | literal l => exact Attempt.ensures_ofExcept fun c hc => stageLiteral_typed hK ht hc
  | value v => exact stageSnapshot_typed hK ht ho
  | item r =>
    exact Attempt.ensures_ofExcept fun c hc =>
      stageTyped_typed hK ht ho.type (.leaf ho.fits rfl) hc
  | expression e =>
    refine Attempt.Ensures.bind (P := fun v => v.Typed K) ?_ fun v hv => stageSnapshot_typed hK ht hv
    exact (Attempt.ensures_true _).bind fun _ _ => Attempt.ensures_ofExcept fun v hv => ho v hv

theorem attemptElements_ensures {σ τ : Type} {f : σ → Attempt Error τ} {P : τ → Prop} {i : Nat}
    {xs : List σ} (h : ∀ x ∈ xs, (f x).Ensures P) :
    (attemptElements f i xs).Ensures fun ys => ∀ y ∈ ys, P y := by
  induction xs generalizing i with
  | nil => exact Attempt.ensures_pure (by simp)
  | cons x xs ih =>
    rw [List.forall_mem_cons] at h
    refine (h.1.under _).bind fun y hy => (ih h.2).bind fun ys hys => Attempt.ensures_pure ?_
    exact List.forall_mem_cons.2 ⟨hy, hys⟩

theorem stageAlternatives_ensures {alternatives : List Ty} {i : Nat} {input : Input}
    (h : ∀ u ∈ alternatives, (stage u input).Ensures (Content.Typed K u)) :
    (stageAlternatives alternatives i input).Ensures fun found => ∀ c, found = some c →
      ∃ j u inner, alternatives[j]? = some u ∧ inner.Typed K u ∧ c = .variant (i + j) ⟨u, inner⟩ := by
  induction alternatives generalizing i with
  | nil => exact Attempt.ensures_pure (by simp)
  | cons u rest ih =>
    rw [List.forall_mem_cons] at h
    rw [stageAlternatives]
    refine h.1.trial.bind fun found hfound => ?_
    cases found with
    | some inner =>
      refine Attempt.ensures_pure ?_
      rintro c ⟨⟩
      exact ⟨0, u, inner, rfl, hfound inner rfl, rfl⟩
    | none =>
      intro p found hrun c hc
      obtain ⟨j, w, inner, hj, hinner, rfl⟩ := ih h.2 p found hrun c hc
      exact ⟨j + 1, w, inner, hj, hinner, by rw [Nat.add_right_comm, Nat.add_assoc]⟩

theorem stageMembers_suits {ms : List Member} {slots : List (Option Initializer)}
    (hmem : ∀ m ∈ ms, m.type ∈ K) (hdefault : ∀ m ∈ ms, ∀ n, m.defaultNode = .ok n → n.Suits K m.type)
    (ih : ∀ m ∈ ms, ∀ i, some i ∈ slots → (stage m.type i.input).Ensures (Content.Typed K m.type)) :
    (stageMembers ms slots).Ensures fun ns => List.Forall₂ (fun n m => n.Suits K m.type) ns ms := by
  induction ms generalizing slots with
  | nil => exact Attempt.ensures_pure .nil
  | cons m ms ihms =>
    simp only [List.forall_mem_cons] at hmem hdefault ih
    rcases m with ⟨symbol, type, default⟩
    rw [stageMembers]
    refine Attempt.Ensures.bind (P := fun n => n.Suits K type) (.under ?_ _) fun n hn =>
      (ihms hmem.2 hdefault.2 fun m hm i hi => ih.2 m hm i (List.mem_of_mem_tail hi)).bind
        fun ns hns => Attempt.ensures_pure (.cons hn hns)
    split
    next i hi =>
      have hslot : some i ∈ slots := by
        cases slots with
        | nil => cases hi
        | cons slot slots =>
          have : slot = some i := by simpa using hi
          exact this ▸ List.mem_cons_self
      exact (ih.1 i hslot).bind fun c hc => Attempt.ensures_pure (Node.suits_mk hmem.1 hc)
    next => exact Attempt.ensures_ofExcept hdefault.1

theorem placeAll_subset {σ : Type} {names : List String} {slots filled : List (Option σ)}
    {cursor : Nat} {entries : List (Option String × σ)}
    (h : placeAll names slots cursor entries = .ok filled) {s : σ} (hs : some s ∈ filled) :
    some s ∈ slots ∨ ∃ name, (name, s) ∈ entries := by
  induction entries generalizing slots cursor with
  | nil => cases h; exact .inl hs
  | cons e rest ih =>
    rcases e with ⟨name, x⟩
    rw [placeAll, Except.bind_eq_ok] at h
    obtain ⟨i, -, h⟩ := h
    split at h
    next => cases h
    next => cases h
    next =>
      rcases ih h with hmem | ⟨name', hmem⟩
      · rcases List.mem_or_eq_of_mem_set hmem with hmem | heq
        · exact .inl hmem
        · cases heq
          exact .inr ⟨name, List.mem_cons_self⟩
      · exact .inr ⟨name', List.mem_cons_of_mem _ hmem⟩

theorem memberSlots_subset {σ : Type} {t : Ty} {ms : List Member}
    {entries : List (Option String × σ)} {slots : List (Option σ)}
    (h : memberSlots t ms entries = .ok slots) {s : σ} (hs : some s ∈ slots) :
    ∃ name, (name, s) ∈ entries := by
  unfold memberSlots at h
  split at h
  next filled hfilled =>
    cases h
    rcases placeAll_subset hfilled hs with hmem | hmem
    · simp at hmem
    · exact hmem
  next => cases h

/-- Every initializer that a slot holds is one of an entry. -/
theorem memberSlots_entry {t : Ty} {ms : List Member} {es : List InitEntry} {slots : List (Option Initializer)}
    (h : memberSlots t ms (es.map fun e => (e.name, e.initializer)) = .ok slots) {i : Initializer}
    (hi : some i ∈ slots) : ∃ e ∈ es, e.initializer = i := by
  obtain ⟨name, hname⟩ := memberSlots_subset h hi
  obtain ⟨e, he, heq⟩ := List.mem_map.1 hname
  exact ⟨e, he, congrArg Prod.snd heq⟩

theorem stageComponents_typed (hK : Catalog K next) {t : Ty} (ht : t ∈ K) {n : Nat}
    {entries : List InitEntry} {c : Content Ty} (h : stageComponents t n entries = .ok c) :
    c.Typed K t := by
  unfold stageComponents at h
  split at h
  next =>
    obtain ⟨ls, -, h⟩ := Except.bind_eq_ok.1 h
    exact stageLiteral_typed hK ht h
  next => cases h

section

variable {t : Ty} {es : List InitEntry}

theorem stage_variant_typed (hK : Catalog K next) (ht : t ∈ K) {us : List Ty} (hs : t.shape = .variant us)
    (h : ∀ u ∈ us, (stage u (.entries es)).Ensures (Content.Typed K u)) : (do
      match ← stageAlternatives us 0 (.entries es) with
      | some content => return content
      | none => Attempt.fail (.dataAt t.path (.noAlternativeForList es.length)) :
        Attempt Error (Content Ty)).Ensures (Content.Typed K t) := by
  refine (stageAlternatives_ensures h).bind fun found hfound => ?_
  cases found with
  | none => exact Attempt.ensures_fail _
  | some c =>
    obtain ⟨j, u, inner, hj, hinner, rfl⟩ := hfound c rfl
    rw [Nat.zero_add]
    have hu := hK.component_mem ht (Ty.component_variant hs (List.mem_of_getElem? hj))
    exact Attempt.ensures_pure (.variant hs hj (Node.suits_mk hu hinner))

theorem stage_struct_typed (hK : Catalog K next) (ht : t ∈ K) {base : Option Ty} {members : List Member}
    (hs : t.shape = .struct base members)
    (h : ∀ m ∈ members, ∀ e ∈ es, (stage m.type e.initializer.input).Ensures (Content.Typed K m.type)) : (do
      let slots ← memberSlots t members (es.map fun e => (e.name, e.initializer))
      return .struct (← stageMembers members slots) : Attempt Error (Content Ty)).Ensures (Content.Typed K t) := by
  obtain ⟨hmem, hdefault⟩ := hK.members_suit ht hs
  refine (Attempt.ensures_ofExcept fun _ hslots => hslots).bind fun slots hslots => ?_
  refine (stageMembers_suits hmem hdefault fun m hm i hi => ?_).bind fun ns hns =>
    Attempt.ensures_pure (.struct hs hns)
  obtain ⟨e, he, rfl⟩ := memberSlots_entry hslots hi
  exact h m hm e he

end

/-- What is staged for a type fits it, whichever input it is staged from. -/
theorem stage_typed (hK : Catalog K next) {t : Ty} (ht : t ∈ K) {input : Input}
    (ho : ∀ o ∈ input.operands, o.Typed K) : (stage t input).Ensures (Content.Typed K t) := by
  induction t using Ty.inductOn generalizing input with
  | step t ih =>
    have part {u : Ty} (hu : u ∈ t.shape.components) {input : Input} (ho : ∀ o ∈ input.operands, o.Typed K) :
        (stage u input).Ensures (Content.Typed K u) := ih u hu (hK.component_mem ht hu) ho
    have child {u : Ty} (hu : u ∈ t.shape.components) {input : Input} (ho : ∀ o ∈ input.operands, o.Typed K) :
        (stage u input).Ensures fun c => (⟨u, c⟩ : Node Ty).Suits K u :=
      fun p c hc => Node.suits_mk (hK.component_mem ht hu) (part hu ho p c hc)
    have hcase := stage_cases t input
    generalize stage t input = x at hcase ⊢
    cases hcase with
    | whole o => exact stageOperand_typed hK ht (ho o List.mem_cons_self)
    | default => exact Attempt.ensures_ofExcept fun c hc => defaultContent_typed hK ht hc
    | lone => exact stageOperand_typed hK ht (ho _ (by simp))
    | components hs es => exact Attempt.ensures_ofExcept fun c hc => stageComponents_typed hK ht hc
    | optional hs es =>
      exact (child (Ty.component_optional hs) ho).bind fun c hc => Attempt.ensures_pure (.optional hs hc)
    | variant hs es => exact stage_variant_typed hK ht hs fun u hu => part (Ty.component_variant hs hu) ho
    | struct hs es =>
      rw [Input.forall_operands_entries] at ho
      exact stage_struct_typed hK ht hs fun m hm e he => part (Ty.component_struct hs hm) (ho e he)
    | @array u hs es hnames =>
      rw [Input.forall_operands_entries] at ho
      refine (attemptElements_ensures (P := fun n => n.Suits K u) fun e he => ?_).bind fun ns hns =>
        Attempt.ensures_pure (.array hs hns)
      exact (child (Ty.component_array hs) (ho e he)).bind fun c hc => Attempt.ensures_pure hc
    | refused es => exact Attempt.ensures_fail _

end TypedValues
