import TypedValues.Proofs.Mirror
import TypedValues.Value.Change

/-! Inputs that match. A value in the place of one of a compatible type with the same content, or an
item in the place of the item of a compatible type at the same position, makes no difference to what is
staged, and neither does a type in the place of one that it mirrors. Lists are treated once for all
relations of operands that are staged alike, up to any relation of contents that may be exchanged inside
others. -/

namespace TypedValues

/-- The contents are the same up to labels and the sign of zero. -/
def Content.Matches {α β : Type} (c : Content α) (d : Content β) : Prop := c.normal = d.normal

namespace Content.Matches

variable {α β : Type}

theorem of_eq {c d : Content α} (h : c = d) : c.Matches d := congrArg Content.normal h

theorem symm {c : Content α} {d : Content β} (h : c.Matches d) : d.Matches c := Eq.symm h

theorem optional {n : Node α} {m : Node β} (h : n.content.Matches m.content) :
    (Content.optional (some n)).Matches (Content.optional (some m)) := by
  rw [Matches, normal, normal, Node.normal_inj.2 h]

theorem variant {n : Node α} {m : Node β} (i : Nat) (h : n.content.Matches m.content) :
    (Content.variant i n).Matches (Content.variant i m) := by
  rw [Matches, normal, normal, Node.normal_inj.2 h]

theorem variant_right {i : Nat} {n : Node α} {d : Content β} (h : (Content.variant i n).Matches d) :
    ∃ m, d = .variant i m := by
  rcases d with _ | _ | _ | _ | _ | (_ | _) | ⟨j, m⟩ | _ | _ <;> simp [Matches, normal] at h
  exact ⟨m, by rw [h.1]⟩

theorem normalAll {ns : List (Node α)} {ms : List (Node β)}
    (h : List.Forall₂ (fun n m => n.content.Matches m.content) ns ms) :
    Node.normalAll ns = Node.normalAll ms := by
  rw [Node.normalAll_eq, Node.normalAll_eq, ← List.forall₂_eq_eq_eq, List.forall₂_map_left_iff,
    List.forall₂_map_right_iff]
  exact h.imp fun _ _ hnm => Node.normal_inj.2 hnm

theorem struct {ns : List (Node α)} {ms : List (Node β)}
    (h : List.Forall₂ (fun n m => n.content.Matches m.content) ns ms) :
    (Content.struct ns).Matches (Content.struct ms) := by
  rw [Matches, normal, normal, normalAll h]

theorem array {ns : List (Node α)} {ms : List (Node β)}
    (h : List.Forall₂ (fun n m => n.content.Matches m.content) ns ms) :
    (Content.array ns).Matches (Content.array ms) := by
  rw [Matches, normal, normal, normalAll h]

theorem array_right {ns : List (Node α)} {d : Content β} (h : (Content.array ns).Matches d) :
    ∃ ms, d = .array ms ∧ ns.length = ms.length := by
  rcases d with _ | _ | _ | _ | _ | (_ | _) | _ | _ | ms <;> simp [Matches, normal] at h
  refine ⟨ms, rfl, ?_⟩
  simpa [Node.normalAll_eq] using congrArg List.length h

end Content.Matches

/-- Related contents may be exchanged anywhere inside others, under the same types. -/
structure Content.Congruence (S : Content Ty → Content Ty → Prop) : Prop where
  refl : ∀ c, S c c
  optional : ∀ {u : Ty} {c d : Content Ty}, S c d → S (.optional (some ⟨u, c⟩)) (.optional (some ⟨u, d⟩))
  variant : ∀ {u : Ty} {c d : Content Ty} (i : Nat), S c d → S (.variant i ⟨u, c⟩) (.variant i ⟨u, d⟩)
  struct : ∀ {ns ms : List (Node Ty)},
    List.Forall₂ (fun n m => n.label = m.label ∧ S n.content m.content) ns ms → S (.struct ns) (.struct ms)
  array : ∀ {ns ms : List (Node Ty)},
    List.Forall₂ (fun n m => n.label = m.label ∧ S n.content m.content) ns ms → S (.array ns) (.array ms)

theorem Content.congruence_matches : Congruence Matches where
  refl _ := rfl
  optional h := .optional h
  variant i h := .variant i h
  struct h := .struct (h.imp fun _ _ hnm => hnm.2)
  array h := .array (h.imp fun _ _ hnm => hnm.2)

theorem Node.eq_of_forall₂ {α : Type} {ns ms : List (Node α)}
    (h : List.Forall₂ (fun n m => n.label = m.label ∧ n.content = m.content) ns ms) : ns = ms := by
  rw [← List.forall₂_eq_eq_eq]
  refine h.imp fun n m ⟨hlabel, hcontent⟩ => ?_
  rcases n with ⟨_, _⟩
  rcases m with ⟨_, _⟩
  exact congr (congrArg Node.mk hlabel) hcontent

theorem Content.congruence_eq : Congruence Eq where
  refl _ := rfl
  optional h := by rw [h]
  variant _ h := by rw [h]
  struct h := congrArg Content.struct (Node.eq_of_forall₂ h)
  array h := congrArg Content.array (Node.eq_of_forall₂ h)

/-- Values of compatible types, both without content or with contents that match. -/
structure Holder.Matches {α β : Type} [HasType α] [HasType β] (v : Holder α) (w : Holder β) : Prop where
  type : v.type.compatible w.type = true
  content : Option.Rel Content.Matches v.content w.content

theorem Holder.Matches.refl {α : Type} [HasType α] (v : Holder α) : v.Matches v := by
  refine ⟨Ty.compatible_refl _, ?_⟩
  cases v.content with
  | none => exact .none
  | some c => exact .some rfl

inductive Operand.Matches : Operand → Operand → Prop where
  | same (o : Operand) : Matches o o
  | value {v w : Snapshot} (h : v.Matches w) : Matches (.value v) (.value w)
  | item {r q : ItemRef} (type : r.type.compatible q.type = true) (index : r.index = q.index) :
      Matches (.item r) (.item q)

mutual

inductive Initializer.Matches : Initializer → Initializer → Prop where
  | operand {o o' : Operand} (h : o.Matches o') :
      Initializer.Matches (.operand o) (.operand o')
  | list {es es' : List InitEntry} (h : InitEntry.AllMatch es es') :
      Initializer.Matches (.list es) (.list es')

inductive InitEntry.AllMatch : List InitEntry → List InitEntry → Prop where
  | nil : InitEntry.AllMatch [] []
  | cons {name : Option String} {i i' : Initializer} {es es' : List InitEntry}
      (h : Initializer.Matches i i') (rest : InitEntry.AllMatch es es') :
      InitEntry.AllMatch (⟨name, i⟩ :: es) (⟨name, i'⟩ :: es')

end

mutual

theorem Initializer.Matches.refl : ∀ i : Initializer, i.Matches i
  | .operand o => .operand (.same o)
  | .list es => .list (InitEntry.AllMatch.refl es)

theorem InitEntry.AllMatch.refl : ∀ es : List InitEntry, InitEntry.AllMatch es es
  | [] => .nil
  | ⟨_, i⟩ :: es => .cons (Initializer.Matches.refl i) (InitEntry.AllMatch.refl es)

end

section

variable {R : Operand → Operand → Prop}

mutual

inductive Initializer.Related (R : Operand → Operand → Prop) : Initializer → Initializer → Prop where
  | operand {o o' : Operand} (h : R o o') : Initializer.Related R (.operand o) (.operand o')
  | list {es es' : List InitEntry} (h : InitEntry.AllRelated R es es') :
      Initializer.Related R (.list es) (.list es')

inductive InitEntry.AllRelated (R : Operand → Operand → Prop) :
    List InitEntry → List InitEntry → Prop where
  | nil : InitEntry.AllRelated R [] []
  | cons {name : Option String} {i i' : Initializer} {es es' : List InitEntry}
      (h : Initializer.Related R i i') (rest : InitEntry.AllRelated R es es') :
      InitEntry.AllRelated R (⟨name, i⟩ :: es) (⟨name, i'⟩ :: es')

end

inductive Input.Related (R : Operand → Operand → Prop) : Input → Input → Prop where
  | whole {o o' : Operand} (h : R o o') : Related R (.whole o) (.whole o')
  | entries {es es' : List InitEntry} (h : InitEntry.AllRelated R es es') :
      Related R (.entries es) (.entries es')

namespace InitEntry

theorem AllRelated.forall₂ {es es' : List InitEntry} (h : AllRelated R es es') :
    List.Forall₂ (fun e e' => e.name = e'.name ∧ e.initializer.Related R e'.initializer) es es' := by
  induction es generalizing es' with
  | nil => cases h; exact .nil
  | cons e es ih =>
    cases h with
    | cons h rest => exact .cons ⟨rfl, h⟩ (ih rest)

end InitEntry

mutual

theorem peel_related : ∀ {es es' : List InitEntry}, InitEntry.AllRelated R es es' →
    InitEntry.AllRelated R (peel es) (peel es')
  | [], _, .nil => .nil
  | [⟨none, i⟩], _, .cons h .nil => by
    rw [peel, peel, peelEntry, peelEntry]
    exact peelOnly_related h
  | [⟨some _, i⟩], _, .cons h .nil => .cons h .nil
  | _ :: _ :: _, _, .cons h (.cons h' rest) => .cons h (.cons h' rest)

theorem peelOnly_related : ∀ {i i' : Initializer}, i.Related R i' →
    InitEntry.AllRelated R (peelOnly i) (peelOnly i')
  | .operand _, _, .operand h => .cons (.operand h) .nil
  | .list inner, _, .list h => by
    rw [peelOnly, peelOnly]
    exact peel_related h

end

theorem Initializer.Related.input {i i' : Initializer} (h : i.Related R i') :
    i.input.Related R i'.input := by
  cases h with
  | operand h => exact .whole h
  | list h => exact .entries (peel_related h)

end

mutual

theorem Initializer.Matches.related : ∀ {i i' : Initializer}, i.Matches i' →
    i.Related Operand.Matches i'
  | _, _, .operand h => .operand h
  | _, _, .list h => .list (InitEntry.AllMatch.related h)

theorem InitEntry.AllMatch.related : ∀ {es es' : List InitEntry}, InitEntry.AllMatch es es' →
    InitEntry.AllRelated Operand.Matches es es'
  | _, _, .nil => .nil
  | _, _, .cons h rest => .cons (Initializer.Matches.related h) (InitEntry.AllMatch.related rest)

end

variable {t u : Ty}

section

variable {S : Content Ty → Content Ty → Prop} (hS : Content.Congruence S)

include hS

theorem stageTyped_agrees (h : t.Mirrors u) {a b : Ty} (hab : a.compatible b = true) {c d : Content Ty}
    (hcd : S c d) (offer offer' : Offer) :
    Except.Agrees S (stageTyped t a c offer) (stageTyped u b d offer') := by
  have hinner (inner : Ty) : a.compatible inner = b.compatible inner :=
    Ty.compatible_congr hab (Ty.compatible_refl inner)
  have hfind (alternatives : List Ty) :
      alternatives.findIdx? (·.compatible a) = alternatives.findIdx? (·.compatible b) :=
    congrArg (alternatives.findIdx? ·)
      (funext fun alternative => Ty.compatible_congr (Ty.compatible_refl alternative) hab)
  unfold stageTyped
  rw [Ty.compatible_congr hab h.compatible]
  split
  · exact .ok hcd
  · rcases h.shapes with ⟨-, hs⟩ | ⟨base, ms, ns, ht, hu, -⟩
    · rw [hs]
      split
      · rw [hinner]
        split
        · exact .ok (hS.optional hcd)
        · exact .incompatible ..
      · rw [hfind]
        split
        · split
          · exact .ok (hS.variant _ hcd)
          · exact .incompatible ..
        · exact .incompatible ..
      · exact .incompatible ..
    · rw [ht, hu]
      exact .incompatible ..

theorem stageSnapshot_agrees (h : t.Mirrors u) {v w : Snapshot} (htype : v.type.compatible w.type = true)
    (hcontent : Option.Rel S v.content w.content) :
    Attempt.Agrees S (stageSnapshot t v) (stageSnapshot u w) := by
  rcases v with ⟨a, c⟩
  rcases w with ⟨b, d⟩
  cases hcontent with
  | none => exact .violate _ _ _ _
  | some hcd => exact .ofExcept (stageTyped_agrees hS h htype hcd _ _)

theorem stageOperand_agrees_self (h : t.Mirrors u) (o : Operand) :
    Attempt.Agrees S (stageOperand t o) (stageOperand u o) := by
  have snapshot (v : Snapshot) : Attempt.Agrees S (stageSnapshot t v) (stageSnapshot u v) := by
    refine stageSnapshot_agrees hS h (Ty.compatible_refl _) ?_
    cases v.content with
    | none => exact .none
    | some c => exact .some (hS.refl c)
  cases o with
  | literal l => exact .ofExcept ((stageLiteral_agrees h l).mono fun c _ hcd => hcd ▸ hS.refl c)
  | value v => exact snapshot v
  | item r => exact .ofExcept (stageTyped_agrees hS h (Ty.compatible_refl _) (hS.refl _) _ _)
  | expression e => exact (Attempt.Agrees.refl (evaluate e)).bind fun v w hvw => hvw ▸ snapshot v

end

/-- Operands that match stand for matching contents. -/
theorem stageOperand_agrees (h : t.Mirrors u) {o o' : Operand} (ho : o.Matches o') :
    Attempt.Agrees Content.Matches (stageOperand t o) (stageOperand u o') := by
  cases ho with
  | value hvw => exact stageSnapshot_agrees Content.congruence_matches h hvw.type hvw.content
  | item htype hindex =>
    refine .ofExcept (stageTyped_agrees Content.congruence_matches h htype ?_ _ _)
    rw [hindex]
    rfl
  | same => exact stageOperand_agrees_self Content.congruence_matches h o

theorem standsForWhole_of_matches (h : t.Mirrors u) {o o' : Operand} (ho : o.Matches o') :
    standsForWhole t o = standsForWhole u o' := by
  have hcompatible {a b : Ty} (hab : a.compatible b = true) : a.compatible t = b.compatible u :=
    Ty.compatible_congr hab h.compatible
  have hself (a : Ty) : a.compatible t = a.compatible u := hcompatible (Ty.compatible_refl a)
  unfold standsForWhole
  rcases h.shapes with ⟨-, hs⟩ | ⟨base, ms, ns, ht, hu, -⟩
  · rw [hs]
    cases ho with
    | same => cases o <;> simp only [hself]
    | value hvw => simp only [hcompatible hvw.type]
    | item => rfl
  · rw [ht, hu]
    cases ho with
    | same => cases o <;> simp only [hself]
    | value hvw => simp only [hcompatible hvw.type]
    | item => rfl

/-- For the types in `T`, operands in the relation `R` are staged to contents in the relation `S`, and are
literals only if they are the same. -/
structure Operand.Interchange (T : Set Ty) (S : Content Ty → Content Ty → Prop)
    (R : Operand → Operand → Prop) : Prop where
  component : ∀ {t u : Ty}, t ∈ T → u ∈ t.shape.components → u ∈ T
  congruence : Content.Congruence S
  literal : ∀ {o o' : Operand}, R o o' → ∀ l, o = .literal l ↔ o' = .literal l
  whole : ∀ {o o' : Operand}, R o o' → ∀ {t u : Ty}, t ∈ T → t.Mirrors u →
    standsForWhole t o = standsForWhole u o'
  stages : ∀ {o o' : Operand}, R o o' → ∀ {t u : Ty}, t ∈ T → t.Mirrors u →
    Attempt.Agrees S (stageOperand t o) (stageOperand u o')

theorem Operand.interchange_matches : Interchange Set.univ Content.Matches Matches where
  component _ _ := Set.mem_univ _
  congruence := Content.congruence_matches
  literal h l := by
    cases h with
    | same => exact Iff.rfl
    | value | item => simp
  whole h _ _ _ ht := standsForWhole_of_matches ht h
  stages h _ _ _ ht := stageOperand_agrees ht h

/-- What a type and its components stage alike is staged alike for values with matching contents, which are
both in the same alternative. -/
theorem restage_congr {α β : Type} {S : Content Ty → Content Ty → Prop} (hS : Content.Congruence S)
    (h : t.Mirrors u) {c : Content α} {d : Content β} (hcd : c.Matches d) {es es' : List InitEntry}
    (hall : Attempt.Agrees S (stageList t es) (stageList u es'))
    (hcomponents : ∀ v ∈ t.shape.components, Attempt.Agrees S (stageList v es) (stageList v es')) :
    Attempt.Agrees S (restage t c es) (restage u d es') := by
  unfold restage
  split
  next alternatives i n hs =>
    obtain ⟨m, rfl⟩ := hcd.variant_right
    simp only [h.shape_eq hs (by simp [Shape.kind])]
    split
    next alternative halternative =>
      have hmem := Ty.component_variant hs (List.mem_of_getElem? halternative)
      refine (hcomponents alternative hmem).trial.bind fun found found' hfound => ?_
      cases hfound with
      | some h => exact .pure (hS.variant i h)
      | none => exact hall
    next => exact hall
  next hother =>
    split
    next alternatives j m hs =>
      obtain ⟨n, rfl⟩ := hcd.symm.variant_right
      exact absurd rfl (hother alternatives j n (h.symm.shape_eq hs (by simp [Shape.kind])))
    next => exact hall

section

variable {T : Set Ty} {S : Content Ty → Content Ty → Prop} {R : Operand → Operand → Prop}
  (hR : Operand.Interchange T S R)

include hR

theorem componentLiterals_agrees (t u : Ty) {es es' : List InitEntry} (h : InitEntry.AllRelated R es es') :
    Except.Agrees Eq (componentLiterals t es) (componentLiterals u es') := by
  induction es generalizing es' with
  | nil => cases h; exact .ok rfl
  | cons e es ih =>
    cases h with
    | cons h rest =>
      cases h with
      | list => exact .incompatible ..
      | @operand o o' ho =>
        have hliteral := hR.literal ho
        cases o with
        | literal l =>
          obtain rfl := (hliteral l).1 rfl
          exact (ih rest).bind fun a b hab => .pure (by rw [hab])
        | _ =>
          cases o' with
          | literal l => cases (hliteral l).2 rfl
          | _ => exact .incompatible ..

omit hR in
theorem hasNames_of_related {es es' : List InitEntry} (h : InitEntry.AllRelated R es es') :
    hasNames es = hasNames es' := by
  induction es generalizing es' with
  | nil => cases h; rfl
  | cons e es ih =>
    cases h with
    | @cons name _ _ _ _ _ rest => exact congrArg (name.isSome || ·) (ih rest)

theorem stageComponents_agrees (h : t.Mirrors u) (n : Nat) {es es' : List InitEntry}
    (hes : InitEntry.AllRelated R es es') :
    Except.Agrees Eq (stageComponents t n es) (stageComponents u n es') := by
  unfold stageComponents
  rw [hes.forall₂.length_eq, hasNames_of_related hes]
  split
  · exact (componentLiterals_agrees hR t u hes).bind fun ls ls' hls => hls ▸ stageLiteral_agrees h _
  · exact .dataAt ..

omit hR in
theorem attemptElements_agrees {σ σ' α α' : Type} {Q : α → α' → Prop} {f : σ → Attempt Error α}
    {g : σ' → Attempt Error α'} {xs : List σ} {ys : List σ'} (i : Nat)
    (h : List.Forall₂ (fun x y => Attempt.Agrees Q (f x) (g y)) xs ys) :
    Attempt.Agrees (List.Forall₂ Q) (attemptElements f i xs) (attemptElements g i ys) := by
  induction h generalizing i with
  | nil => exact .pure .nil
  | cons hxy _ ih =>
    exact (hxy.under _ _).bind fun a b hab => (ih (i + 1)).bind fun as bs hall => .pure (.cons hab hall)

theorem settled?_agrees (ht : t ∈ T) (h : t.Mirrors u) {es es' : List InitEntry}
    (hes : InitEntry.AllRelated R es es') :
    Option.Rel (Attempt.Agrees S) (settled? t es) (settled? u es') := by
  cases hes with
  | nil => exact .some (.ofExcept ((defaultContent_agrees h).mono fun c _ hcd => hcd ▸ hR.congruence.refl c))
  | @cons name i i' _ _ hi rest =>
    cases rest with
    | cons =>
      simp only [settled?]
      exact .none
    | nil =>
      cases hi with
      | list => cases name <;> exact .none
      | operand ho =>
        cases name with
        | some => exact .none
        | none =>
          rw [settled?, settled?, hR.whole ho ht h]
          split
          · exact .some (hR.stages ho ht h)
          · exact .none

theorem stageAlternatives_agrees {alternatives : List Ty} (i : Nat) {x y : Input}
    (h : ∀ a ∈ alternatives, Attempt.Agrees S (stage a x) (stage a y)) :
    Attempt.Agrees (Option.Rel S) (stageAlternatives alternatives i x)
      (stageAlternatives alternatives i y) := by
  induction alternatives generalizing i with
  | nil => exact .pure .none
  | cons a rest ih =>
    rw [List.forall_mem_cons] at h
    rw [stageAlternatives, stageAlternatives]
    refine h.1.trial.bind fun found found' hfound => ?_
    cases hfound with
    | some hcd => exact .pure (.some (hR.congruence.variant i hcd))
    | none => exact ih (i + 1) h.2

theorem stageMembers_agrees {ms ns : List Member} (hmembers : List.Forall₂ Member.Mirrors ms ns)
    (h : ∀ m ∈ ms, ∀ x y : Input, x.Related R y → Attempt.Agrees S (stage m.type x) (stage m.type y))
    {slots slots' : List (Option Initializer)}
    (hslots : List.Forall₂ (Option.Rel (Initializer.Related R)) slots slots') :
    Attempt.Agrees (List.Forall₂ fun n m => n.label = m.label ∧ S n.content m.content) (stageMembers ms slots)
      (stageMembers ns slots') := by
  induction hmembers generalizing slots slots' with
  | nil => exact .pure .nil
  | @cons m n _ _ hmn _ ih =>
    rw [List.forall_mem_cons] at h
    have hdefault := defaultNode_agrees hmn
    rcases m with ⟨symbol, type, default⟩
    rcases n with ⟨symbol', type', default'⟩
    obtain ⟨-, rfl, rfl⟩ := hmn
    obtain ⟨hhead, htail⟩ := slots_head_tail hslots
    rw [stageMembers, stageMembers]
    refine Attempt.Agrees.bind (R := fun n m => n.label = m.label ∧ S n.content m.content) (.under ?_ _ _)
      fun a b hab => (ih h.2 htail).bind fun as bs hall => .pure (.cons hab hall)
    generalize slots.head?.join = slot, slots'.head?.join = slot' at hhead
    cases hhead with
    | some hi => exact (h.1 _ _ hi.input).bind fun c d hcd => .pure ⟨rfl, hcd⟩
    | none => exact .ofExcept (hdefault.mono fun a b hab => hab ▸ ⟨rfl, hR.congruence.refl _⟩)

theorem stage_struct_related {es es' : List InitEntry} (hes : InitEntry.AllRelated R es es') {ms ns : List Member}
    (hmembers : List.Forall₂ Member.Mirrors ms ns)
    (h : ∀ m ∈ ms, ∀ x y : Input, x.Related R y → Attempt.Agrees S (stage m.type x) (stage m.type y)) :
    Attempt.Agrees S
      (do
        let slots ← memberSlots t ms (es.map fun e => (e.name, e.initializer))
        return .struct (← stageMembers ms slots) : Attempt Error (Content Ty))
      (do
        let slots ← memberSlots u ns (es'.map fun e => (e.name, e.initializer))
        return .struct (← stageMembers ns slots) : Attempt Error (Content Ty)) := by
  refine Attempt.Agrees.bind (.ofExcept (memberSlots_agrees (R := Initializer.Related R) _ _ hmembers ?_))
    fun slots slots' hslots => (stageMembers_agrees hR hmembers h hslots).bind fun as bs hall =>
      .pure (hR.congruence.struct hall)
  rw [List.forall₂_map_left_iff, List.forall₂_map_right_iff]
  exact hes.forall₂

omit hR in
theorem stage_elements_related {es es' : List InitEntry} (hes : InitEntry.AllRelated R es es') {element : Ty}
    (h : ∀ x y : Input, x.Related R y → Attempt.Agrees S (stage element x) (stage element y)) :
    Attempt.Agrees (List.Forall₂ fun (n m : Node Ty) => n.label = m.label ∧ S n.content m.content)
      (attemptElements (fun e => return ⟨element, ← stage element e.initializer.input⟩) 0 es)
      (attemptElements (fun e => return ⟨element, ← stage element e.initializer.input⟩) 0 es') := by
  refine attemptElements_agrees 0 (hes.forall₂.imp fun e e' hee => ?_)
  exact (h _ _ hee.2.input).bind fun c d hcd => .pure ⟨rfl, hcd⟩

/-- From related inputs, types that mirror each other stage related contents. -/
theorem stage_related (ht : t ∈ T) (h : t.Mirrors u) {x y : Input} (hxy : x.Related R y) :
    Attempt.Agrees S (stage t x) (stage u y) := by
  induction t using Ty.inductOn generalizing u x y with
  | step t ih =>
    have ih' : ∀ v ∈ t.shape.components, ∀ {x y : Input}, x.Related R y →
        Attempt.Agrees S (stage v x) (stage v y) :=
      fun v hv _ _ hxy => ih v hv (hR.component ht hv) (.refl v) hxy
    cases hxy with
    | whole ho =>
      rw [stage.eq_def, stage.eq_def]
      exact hR.stages ho ht h
    | @entries es es' hes =>
      have hsettled := settled?_agrees hR ht h hes
      rw [stage.eq_def, stage.eq_def]
      dsimp only
      generalize hx : settled? t es = settled, hy : settled? u es' = settled' at hsettled
      cases hsettled with
      | some hagrees => exact hagrees
      | none =>
        clear hx hy
        have hcomponents (n : Nat) : Except.Agrees S (stageComponents t n es) (stageComponents u n es') :=
          (stageComponents_agrees hR h n hes).mono fun c _ hcd => hcd ▸ hR.congruence.refl c
        have hshapes := h.shapes
        rcases t with ⟨_, _, _, shape, _, _⟩
        rcases u with ⟨_, _, _, shape', _, _⟩
        dsimp only at hshapes
        rcases hshapes with ⟨hk, rfl⟩ | ⟨base, ms, ns, rfl, rfl, hmembers⟩
        · cases shape with
          | bool | string | enum => exact .fail rfl
          | integral kind n => exact .ofExcept (hcomponents n)
          | real kind n => exact .ofExcept (hcomponents n)
          | optional argument =>
            cases argument with
            | none => exact .fail rfl
            | some inner =>
              exact (ih' inner List.mem_cons_self (.entries hes)).bind fun c d hcd =>
                .pure (hR.congruence.optional hcd)
          | variant alternatives =>
            refine (stageAlternatives_agrees hR 0 fun a ha => ih' a ha (.entries hes)).bind
              fun found found' hfound => ?_
            cases hfound with
            | some hcd => exact .pure hcd
            | none => exact .fail rfl
          | struct => exact absurd rfl hk
          | array argument =>
            cases argument with
            | none => exact .fail rfl
            | some element =>
              dsimp only
              rw [hasNames_of_related hes]
              split
              · exact .fail rfl
              · refine (stage_elements_related hes fun x y hxy => ?_).bind fun ns ms hall =>
                  .pure (hR.congruence.array hall)
                exact ih' element List.mem_cons_self hxy
        · exact stage_struct_related hR hes hmembers fun m hm x y hxy => ih' m.type (List.mem_map_of_mem hm) hxy

theorem stageList_related (ht : t ∈ T) (h : t.Mirrors u) {es es' : List InitEntry}
    (hes : InitEntry.AllRelated R es es') :
    Attempt.Agrees S (stageList t es) (stageList u es') :=
  stage_related hR ht h (.entries (peel_related hes))

/-- Values with matching contents keep the same alternative. -/
theorem restage_related {α β : Type} (ht : t ∈ T) (h : t.Mirrors u) {c : Content α} {d : Content β}
    (hcd : c.Matches d) {es es' : List InitEntry} (hes : InitEntry.AllRelated R es es') :
    Attempt.Agrees S (restage t c es) (restage u d es') :=
  restage_congr hR.congruence h hcd (stageList_related hR ht h hes)
    fun v hv => stageList_related hR (hR.component ht hv) (.refl v) hes

end

theorem stageList_agrees (h : t.Mirrors u) {es es' : List InitEntry} (hes : InitEntry.AllMatch es es') :
    Attempt.Agrees Content.Matches (stageList t es) (stageList u es') :=
  stageList_related Operand.interchange_matches (Set.mem_univ t) h hes.related

theorem restage_agrees {α β : Type} (h : t.Mirrors u) {c : Content α} {d : Content β} (hcd : c.Matches d)
    {es es' : List InitEntry} (hes : InitEntry.AllMatch es es') :
    Attempt.Agrees Content.Matches (restage t c es) (restage u d es') :=
  restage_related Operand.interchange_matches (Set.mem_univ t) h hcd hes.related

theorem variantFields_agrees (t u : Ty) (alternatives : List Ty) (fields : List Field) :
    Except.Agrees Eq (variantFields t alternatives fields) (variantFields u alternatives fields) := by
  unfold variantFields
  split
  · split
    · split
      · exact .ok rfl
      · exact .dataAt ..
    · exact .dataAt ..
  · exact .dataAt ..

theorem decodeAlternative_agrees (t u : Ty) (alternatives : List Ty) (i : Nat) (d : Document) :
    Attempt.Agrees Eq (decodeAlternative t alternatives i d) (decodeAlternative u alternatives i d) := by
  induction alternatives generalizing i with
  | nil => rw [decodeAlternative, decodeAlternative]; exact .fail rfl
  | cons a rest ih =>
    cases i with
    | zero => rw [decodeAlternative, decodeAlternative]; exact .refl _
    | succ i => rw [decodeAlternative, decodeAlternative]; exact ih i

theorem decodeMembers_agrees {ms ns : List Member} (hmembers : List.Forall₂ Member.Mirrors ms ns)
    (fields : List Field) : Attempt.Agrees Eq (decodeMembers ms fields) (decodeMembers ns fields) := by
  induction hmembers with
  | nil => exact .pure rfl
  | @cons m n _ _ hmn _ ih =>
    have hdefault := defaultNode_agrees hmn
    have hname := hmn.name
    rcases m with ⟨symbol, type, default⟩
    rcases n with ⟨symbol', type', default'⟩
    obtain ⟨-, rfl, rfl⟩ := hmn
    rw [decodeMembers, decodeMembers, show symbol.name = symbol'.name from hname]
    refine Attempt.Agrees.bind (R := Eq) (.under ?_ _ _) fun a b hab => ih.bind fun as bs hall =>
      .pure (by rw [hab, hall])
    split
    · exact .refl _
    · exact .ofExcept hdefault

/-- A document gives types that mirror each other the same content. -/
theorem decode_agrees (h : t.Mirrors u) (d : Document) : Attempt.Agrees Eq (decode t d) (decode u d) := by
  have hscalar := decodeScalar_agrees h d
  have hshapes := h.shapes
  rcases t with ⟨_, _, _, shape, _, _⟩
  rcases u with ⟨_, _, _, shape', _, _⟩
  dsimp only at hshapes
  rcases hshapes with ⟨hk, rfl⟩ | ⟨base, ms, ns, rfl, rfl, hmembers⟩
  · cases shape with
    | bool | integral | real | string =>
      rw [decode, decode]
      exact .ofExcept hscalar
    | enum e =>
      rw [decode, decode]
      exact .ofExcept (decodeItem_agrees _ _ e d)
    | optional argument =>
      cases argument with
      | none =>
        cases d with
        | null => exact .pure rfl
        | _ => exact .fail rfl
      | some inner =>
        cases d with
        | null => exact .pure rfl
        | _ => exact .refl _
    | variant alternatives =>
      cases d with
      | object fields =>
        rw [decode, decode]
        refine Attempt.Agrees.bind (.ofExcept (variantFields_agrees _ _ alternatives fields)) fun p q hpq => ?_
        subst hpq
        exact (decodeAlternative_agrees _ _ alternatives p.1 p.2).bind fun n m hnm => .pure (by rw [hnm])
      | _ => exact .fail rfl
    | struct => exact absurd rfl hk
    | array argument =>
      cases d with
      | array items =>
        cases argument with
        | none => exact .fail rfl
        | some element => exact .refl _
      | _ => exact .fail rfl
  · cases d with
    | object fields =>
      rw [decode, decode]
      refine Attempt.Agrees.bind (R := fun _ _ => True) (fun p => .ok trivial) fun _ _ _ => ?_
      exact (decodeMembers_agrees hmembers fields).bind fun as bs hall => .pure (by rw [hall])
    | _ => exact .fail rfl

end TypedValues
