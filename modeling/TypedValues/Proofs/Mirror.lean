import TypedValues.Proofs.Agreement
import TypedValues.Proofs.Building
import TypedValues.Document.Decode
import TypedValues.UiText

/-! Types that mirror each other: one build, one source, and the same attributes but for the names of
native types. An alias mirrors its source. Defaults, literals, operands and texts do not tell such types
apart: each gives both the same content, or fails for both with errors of one category. -/

namespace TypedValues

/-- The types have one source, and agree on all that values depend on. -/
structure Ty.Mirrors (t u : Ty) : Prop where
  core : t.shape.core = u.shape.core
  compatible : t.compatible u = true
  literal : ∀ key, key ≠ "native_type" → t.definition.literal? key = u.definition.literal? key

/-- The members differ in their places at most. -/
structure Member.Mirrors (m n : Member) : Prop where
  name : m.name = n.name
  type : m.type = n.type
  default : m.default = n.default

theorem Member.Mirrors.refl (m : Member) : m.Mirrors m := ⟨rfl, rfl, rfl⟩

namespace Ty

variable {t u : Ty}

theorem Mirrors.refl (t : Ty) : t.Mirrors t := ⟨rfl, compatible_refl t, fun _ _ => rfl⟩

/-- Sealed under any identity, in a scope or in none, an alias mirrors its source. -/
theorem mirrors_of_alias (t : Ty) (name : String) (d : Definition)
    (hshape : d.shape.core = (t.aliasNamed name).shape.core)
    (hattributes : d.attributes = (t.aliasNamed name).attributes) (halias : d.aliased = some t)
    (identity : Nat) : t.Mirrors (d.withIdentity identity) := by
  refine ⟨(hshape.trans (Shape.core_relink _ _)).symm, ?_, fun key hkey => ?_⟩
  · rcases d with ⟨_, _, _, _, _⟩
    subst halias
    exact compatible_iff.2 rfl
  · exact (Definition.literal?_filter hkey hattributes rfl).symm

theorem compatible_congr {a a' b b' : Ty} (ha : a.compatible a' = true) (hb : b.compatible b' = true) :
    a.compatible b = a'.compatible b' := by
  rw [Bool.eq_iff_iff, compatible_iff, compatible_iff, compatible_iff.1 ha, compatible_iff.1 hb]

namespace Mirrors

theorem symm (h : t.Mirrors u) : u.Mirrors t :=
  ⟨h.core.symm, compatible_symm h.compatible, fun key hkey => (h.literal key hkey).symm⟩

theorem shape_eq (h : t.Mirrors u) {s : Shape} (hs : t.shape = s) (hk : s.kind ≠ .struct) : u.shape = s :=
  Shape.eq_of_core_eq h.core hs hk

theorem members (h : t.Mirrors u) : List.Forall₂ Member.Mirrors t.shape.members u.shape.members := by
  have hmembers := congrArg Shape.members h.core
  rw [Shape.members_core, Shape.members_core, ← List.forall₂_eq_eq_eq, List.forall₂_map_left_iff,
    List.forall₂_map_right_iff] at hmembers
  refine hmembers.imp fun m n hmn => ?_
  rcases m with ⟨⟨name, _, _⟩, _, _⟩
  rcases n with ⟨⟨name', _, _⟩, _, _⟩
  cases hmn
  exact ⟨rfl, rfl, rfl⟩

theorem struct (h : t.Mirrors u) {base : Option Ty} {ms : List Member} (hs : t.shape = .struct base ms) :
    ∃ ns, u.shape = .struct base ns ∧ List.Forall₂ Member.Mirrors ms ns := by
  obtain ⟨ns, hns, -⟩ := Shape.exists_struct_of_core_eq h.core hs
  have hmembers := h.members
  rw [hs, hns] at hmembers
  exact ⟨ns, hns, hmembers⟩

/-- Two types of one shape that is not a struct's, or two structs over mirrored members. -/
theorem shapes (h : t.Mirrors u) : (t.shape.kind ≠ .struct ∧ t.shape = u.shape) ∨
    ∃ base ms ns, t.shape = .struct base ms ∧ u.shape = .struct base ns ∧
      List.Forall₂ Member.Mirrors ms ns := by
  by_cases hk : t.shape.kind = .struct
  · cases hs : t.shape with
    | struct base ms =>
      obtain ⟨ns, hns, hmembers⟩ := h.struct hs
      exact .inr ⟨base, ms, ns, rfl, hns, hmembers⟩
    | _ => rw [hs] at hk; cases hk
  · exact .inl ⟨hk, (h.shape_eq rfl hk).symm⟩

theorem intRange? (h : t.Mirrors u) : t.intRange? = u.intRange? := by
  have hmin := h.literal "min" (by decide)
  have hmax := h.literal "max" (by decide)
  unfold Ty.intRange? Definition.intRange?
  rw [hmin, hmax]
  rcases h.shapes with ⟨-, hs⟩ | ⟨base, ms, ns, ht, hu, -⟩
  · rw [show t.definition.shape = u.definition.shape from hs]
  · rw [show t.definition.shape = _ from ht, show u.definition.shape = _ from hu]

theorem realRange? (h : t.Mirrors u) : t.realRange? = u.realRange? := by
  have hmin := h.literal "min" (by decide)
  have hmax := h.literal "max" (by decide)
  unfold Ty.realRange? Definition.realRange?
  rw [hmin, hmax]
  rcases h.shapes with ⟨-, hs⟩ | ⟨base, ms, ns, ht, hu, -⟩
  · rw [show t.definition.shape = u.definition.shape from hs]
  · rw [show t.definition.shape = _ from ht, show u.definition.shape = _ from hu]

theorem decimals? (h : t.Mirrors u) : t.definition.decimals? = u.definition.decimals? := by
  rw [Definition.decimals?, h.literal "decimals" (by decide), Definition.decimals?]

end Mirrors

end Ty

theorem intComponent_agrees {t u : Ty} (h : t.Mirrors u) (l : Literal) :
    Except.Agrees Eq (intComponent t l) (intComponent u l) := by
  cases l with
  | int z =>
    rw [intComponent, intComponent, h.intRange?]
    split
    · split
      · exact .ok rfl
      · exact .dataAt ..
    · exact .ok rfl
  | _ => exact .incompatible ..

theorem realComponent_agrees {t u : Ty} (h : t.Mirrors u) (kind : RealKind) (l : Literal) :
    Except.Agrees Eq (realComponent t kind l) (realComponent u kind l) := by
  rw [realComponent, realComponent, h.realRange?]
  split
  · exact .incompatible ..
  · split
    · exact .dataAt ..
    · split
      · split
        · exact .dataAt ..
        · exact .ok rfl
      · exact .ok rfl

theorem Except.Agrees.mapM_eq {σ α : Type} {f g : σ → Except Error α} {xs : List σ}
    (h : ∀ x ∈ xs, Agrees Eq (f x) (g x)) : Agrees Eq (xs.mapM f) (xs.mapM g) := by
  rw [← List.forall₂_eq_eq_eq]
  exact .mapM (List.forall₂_same.2 h)

theorem componentsOf_agrees {α : Type} (t u : Ty) (n : Nat) {f g : Literal → Except Error α}
    (h : ∀ l, Except.Agrees Eq (f l) (g l)) (l : Literal) :
    Except.Agrees Eq (componentsOf t n f l) (componentsOf u n g l) := by
  unfold componentsOf
  split
  · refine (h l).bind fun a b hab => .pure (by rw [hab])
  · split
    · split
      · exact .mapM_eq fun l _ => h l
      · exact .dataAt ..
    · exact .dataAt ..

theorem stageElements_agrees {σ α : Type} {f g : σ → Except Error α} {i : Nat} {xs : List σ}
    (h : ∀ x ∈ xs, Except.Agrees Eq (f x) (g x)) :
    Except.Agrees Eq (stageElements f i xs) (stageElements g i xs) := by
  induction xs generalizing i with
  | nil => exact .ok rfl
  | cons x xs ih =>
    rw [List.forall_mem_cons] at h
    exact (h.1.underSite _ _).bind fun a b hab => (ih h.2).bind fun as bs hall =>
      .pure (by rw [hab, hall])

section

variable {σ τ : Type} {R : σ → τ → Prop}

theorem forall₂_set_both {as : List σ} {bs : List τ} (h : List.Forall₂ R as bs) {a : σ} {b : τ} (hab : R a b)
    (i : Nat) : List.Forall₂ R (as.set i a) (bs.set i b) := by
  induction h generalizing i with
  | nil => exact .nil
  | cons hhead hrest ih =>
    cases i with
    | zero => exact .cons hab hrest
    | succ i => exact .cons hhead (ih i)

/-- Entries that carry the same names go to the same slots. -/
theorem placeAll_related (names : List String) (cursor : Nat) {slots : List (Option σ)}
    {slots' : List (Option τ)} {es : List (Option String × σ)} {es' : List (Option String × τ)}
    (hslots : List.Forall₂ (Option.Rel R) slots slots')
    (h : List.Forall₂ (fun e e' => e.1 = e'.1 ∧ R e.2 e'.2) es es') :
    (∃ filled filled', placeAll names slots cursor es = .ok filled ∧
      placeAll names slots' cursor es' = .ok filled' ∧ List.Forall₂ (Option.Rel R) filled filled') ∨
    ∃ cause, placeAll names slots cursor es = .error cause ∧ placeAll names slots' cursor es' = .error cause := by
  induction h generalizing slots slots' cursor with
  | nil => exact .inl ⟨slots, slots', rfl, rfl, hslots⟩
  | @cons e e' _ _ hhead _ ih =>
    rcases e with ⟨name, x⟩
    rcases e' with ⟨name', x'⟩
    obtain ⟨rfl, hx⟩ : name = name' ∧ R x x' := hhead
    cases hi : slotIndex names cursor name with
    | error cause => exact .inr ⟨cause, by simp [placeAll, hi, bind, Except.bind]⟩
    | ok i =>
      have hlookup : Option.Rel (Option.Rel R) slots[i]? slots'[i]? := by
        have hlength := hslots.length_eq
        by_cases hlt : i < slots.length
        · rw [List.getElem?_eq_getElem hlt, List.getElem?_eq_getElem (hlength ▸ hlt)]
          exact .some (hslots.get hlt (hlength ▸ hlt))
        · rw [List.getElem?_eq_none (Nat.le_of_not_lt hlt), List.getElem?_eq_none (hlength ▸ Nat.le_of_not_lt hlt)]
          exact .none
      simp only [placeAll, hi, bind, Except.bind]
      generalize slots[i]? = found, slots'[i]? = found' at hlookup
      cases hlookup with
      | none => exact .inr ⟨_, rfl, rfl⟩
      | some hfound =>
        cases hfound with
        | some _ => exact .inr ⟨_, rfl, rfl⟩
        | none => exact ih (i + 1) (forall₂_set_both hslots (.some hx) i)

theorem slots_head_tail {slots : List (Option σ)} {slots' : List (Option τ)}
    (h : List.Forall₂ (Option.Rel R) slots slots') :
    Option.Rel R slots.head?.join slots'.head?.join ∧ List.Forall₂ (Option.Rel R) slots.tail slots'.tail := by
  cases h with
  | nil => exact ⟨.none, .nil⟩
  | cons hslot hrest => exact ⟨hslot, hrest⟩

theorem memberSlots_agrees (t u : Ty) {ms ns : List Member} (hmembers : List.Forall₂ Member.Mirrors ms ns)
    {es : List (Option String × σ)} {es' : List (Option String × τ)}
    (h : List.Forall₂ (fun e e' => e.1 = e'.1 ∧ R e.2 e'.2) es es') :
    Except.Agrees (List.Forall₂ (Option.Rel R)) (memberSlots t ms es) (memberSlots u ns es') := by
  have hnames : ms.map (·.name) = ns.map (·.name) := by
    rw [← List.forall₂_eq_eq_eq, List.forall₂_map_left_iff, List.forall₂_map_right_iff]
    exact hmembers.imp fun _ _ hmn => hmn.name
  have hempty : List.Forall₂ (Option.Rel R) (List.replicate ms.length none) (List.replicate ns.length none) := by
    rw [← hmembers.length_eq]
    exact List.forall₂_iff_get.2 ⟨by simp, fun i _ _ => by simp⟩
  unfold memberSlots
  rw [← hnames]
  rcases placeAll_related (ms.map (·.name)) 0 hempty h with
    ⟨filled, filled', hfilled, hfilled', hrelated⟩ | ⟨cause, hcause, hcause'⟩
  · rw [hfilled, hfilled']
    exact .ok hrelated
  · rw [hcause, hcause']
    exact .dataAt ..

end

theorem memberSlots_agrees_self {σ : Type} (t u : Ty) {ms ns : List Member}
    (hmembers : List.Forall₂ Member.Mirrors ms ns) (es : List (Option String × σ)) :
    Except.Agrees Eq (memberSlots t ms es) (memberSlots u ns es) := by
  refine (memberSlots_agrees (R := Eq) t u hmembers (List.forall₂_same.2 fun _ _ => ⟨rfl, rfl⟩)).mono ?_
  intro slots slots' h
  rw [← List.forall₂_eq_eq_eq]
  refine h.imp fun a b hab => ?_
  cases hab with
  | some hab => rw [hab]
  | none => rfl

theorem defaultMembers_agrees {ms ns : List Member} (hmembers : List.Forall₂ Member.Mirrors ms ns)
    (h : ∀ m ∈ ms, Except.Agrees Eq (defaultContent m.type) (defaultContent m.type)) :
    Except.Agrees Eq (defaultMembers ms) (defaultMembers ns) := by
  induction hmembers with
  | nil => exact .ok rfl
  | @cons m n _ _ hmn _ ih =>
    rw [List.forall_mem_cons] at h
    rcases m with ⟨symbol, type, default⟩
    rcases n with ⟨symbol', type', default'⟩
    obtain ⟨-, rfl, rfl⟩ := hmn
    cases default with
    | some declared => exact (ih h.2).bind fun a b hab => .pure (by rw [hab])
    | none =>
      exact (h.1.underSite _ _).bind fun c d hcd => (ih h.2).bind fun a b hab => .pure (by rw [hcd, hab])

/-- Types that mirror each other have one default. -/
theorem defaultContent_agrees {t u : Ty} (h : t.Mirrors u) :
    Except.Agrees Eq (defaultContent t) (defaultContent u) := by
  induction t using Ty.inductOn generalizing u with
  | step t ih =>
    have hint := h.intRange?
    have hreal := h.realRange?
    have hshapes := h.shapes
    rcases t with ⟨_, _, _, shape, _, _⟩
    rcases u with ⟨_, _, _, shape', _, _⟩
    dsimp only at hshapes
    rcases hshapes with ⟨hk, rfl⟩ | ⟨base, ms, ns, rfl, rfl, hmembers⟩
    · cases shape with
      | bool | string | optional | array => exact .ok rfl
      | integral => exact .ok (by rw [hint])
      | real => exact .ok (by rw [hreal])
      | enum d =>
        rw [defaultContent, defaultContent]
        split
        · exact .ok rfl
        · exact .dataAt ..
      | variant alternatives =>
        cases alternatives with
        | nil => exact .schemaAt ..
        | cons first rest =>
          exact (ih first List.mem_cons_self (.refl first)).bind fun c d hcd => .pure (by rw [hcd])
      | struct => exact absurd rfl hk
    · refine (defaultMembers_agrees hmembers fun m hm => ?_).bind fun a b hab => .pure (by rw [hab])
      exact ih m.type (List.mem_map_of_mem hm) (.refl m.type)

theorem defaultNode_agrees {m n : Member} (h : m.Mirrors n) :
    Except.Agrees Eq m.defaultNode n.defaultNode := by
  rcases m with ⟨symbol, type, default⟩
  rcases n with ⟨symbol', type', default'⟩
  obtain ⟨-, rfl, rfl⟩ := h
  cases default with
  | some declared => exact .ok rfl
  | none => exact (defaultContent_agrees (.refl type)).bind fun c d hcd => .pure (by rw [hcd])

theorem stageMemberLiterals_agrees {ms ns : List Member} (hmembers : List.Forall₂ Member.Mirrors ms ns)
    (h : ∀ m ∈ ms, ∀ l, Except.Agrees Eq (stageLiteral m.type l) (stageLiteral m.type l))
    (slots : List (Option Literal)) :
    Except.Agrees Eq (stageMemberLiterals ms slots) (stageMemberLiterals ns slots) := by
  induction hmembers generalizing slots with
  | nil => exact .ok rfl
  | @cons m n _ _ hmn _ ih =>
    rw [List.forall_mem_cons] at h
    have hdefault := defaultNode_agrees hmn
    rcases m with ⟨symbol, type, default⟩
    rcases n with ⟨symbol', type', default'⟩
    obtain ⟨-, rfl, rfl⟩ := hmn
    rw [stageMemberLiterals, stageMemberLiterals]
    refine (Except.Agrees.underSite (R := Eq) ?_ _ _).bind fun a b hab => (ih h.2 _).bind fun as bs hall =>
      .pure (by rw [hab, hall])
    split
    · exact (h.1 _).bind fun c d hcd => .pure (by rw [hcd])
    · exact hdefault

/-- A literal gives types that mirror each other the same content. -/
theorem stageLiteral_agrees {t u : Ty} (h : t.Mirrors u) (l : Literal) :
    Except.Agrees Eq (stageLiteral t l) (stageLiteral u l) := by
  induction t using Ty.inductOn generalizing u l with
  | step t ih =>
    have hint := fun t' u' n => componentsOf_agrees t' u' n (intComponent_agrees h)
    have hreal := fun t' u' n kind => componentsOf_agrees t' u' n (realComponent_agrees h kind)
    have hshapes := h.shapes
    rcases t with ⟨_, _, _, shape, _, _⟩
    rcases u with ⟨_, _, _, shape', _, _⟩
    dsimp only at hshapes
    rcases hshapes with ⟨hk, rfl⟩ | ⟨base, ms, ns, rfl, rfl, hmembers⟩
    · cases shape with
      | bool =>
        cases l with
        | bool b => exact .ok rfl
        | _ => exact .incompatible ..
      | string =>
        cases l with
        | text s => exact .ok rfl
        | _ => exact .incompatible ..
      | integral kind n =>
        rw [stageLiteral, stageLiteral]
        exact (hint _ _ n l).bind fun a b hab => .pure (by rw [hab])
      | real kind n =>
        rw [stageLiteral, stageLiteral]
        exact (hreal _ _ n kind l).bind fun a b hab => .pure (by rw [hab])
      | enum d => exact .dataAt ..
      | optional argument =>
        cases argument with
        | none =>
          cases l with
          | null => exact .ok rfl
          | _ => exact .incompatible ..
        | some inner =>
          cases l with
          | null => exact .ok rfl
          | _ => exact (ih inner List.mem_cons_self (.refl inner) _).bind fun c d hcd => .pure (by rw [hcd])
      | variant alternatives =>
        rw [stageLiteral, stageLiteral]
        split
        · exact .ok rfl
        · exact .dataAt ..
      | struct => exact absurd rfl hk
      | array argument =>
        cases argument with
        | none => exact .incompatible ..
        | some element =>
          cases l with
          | list items =>
            rw [stageLiteral, stageLiteral]
            refine (stageElements_agrees fun l _ => ?_).bind fun a b hab => .pure (by rw [hab])
            exact (ih element List.mem_cons_self (.refl element) l).bind fun c d hcd => .pure (by rw [hcd])
          | _ => exact .incompatible ..
    · cases l with
      | list items =>
        rw [stageLiteral, stageLiteral]
        refine (memberSlots_agrees_self _ _ hmembers _).bind fun slots slots' hslots => hslots ▸
          (stageMemberLiterals_agrees hmembers (fun m hm l => ?_) slots).bind fun as bs hall =>
            .pure (by rw [hall])
        exact ih m.type (List.mem_map_of_mem hm) (.refl m.type) l
      | _ => exact .incompatible ..

theorem decodeScalar_agrees {t u : Ty} (h : t.Mirrors u) (d : Document) :
    Except.Agrees Eq (decodeScalar t d) (decodeScalar u d) := by
  unfold decodeScalar
  split
  · exact stageLiteral_agrees h _
  · exact .dataAt ..

theorem decodeItem_agrees (t u : Ty) (e : EnumDef) (d : Document) :
    Except.Agrees Eq (decodeItem t e d) (decodeItem u e d) := by
  cases d with
  | text name =>
    rw [decodeItem, decodeItem]
    split
    · exact .ok rfl
    · exact .dataAt ..
  | _ => exact .dataAt ..

namespace UiText

theorem readParts_agrees (t u : Ty) (wanted : TextSort) (read? : List Char → Option Literal)
    (parts : List (List Char)) :
    Except.Agrees Eq (readParts t wanted read? parts) (readParts u wanted read? parts) := by
  induction parts with
  | nil => exact .ok rfl
  | cons part rest ih =>
    simp only [readParts]
    split
    · exact ih.bind fun a b hab => .pure (by rw [hab])
    · exact .dataAt ..

theorem readNumbers_agrees {t u : Ty} (h : t.Mirrors u) (n : Nat) (wanted : TextSort)
    (read? : List Char → Option Literal) (text : String) :
    Except.Agrees Eq (readNumbers t n wanted read? text) (readNumbers u n wanted read? text) :=
  (readParts_agrees t u wanted read? _).bind fun _ _ hab => hab ▸ stageLiteral_agrees h _

theorem read_agrees {t u : Ty} (h : t.Mirrors u) (text : String) :
    Except.Agrees Eq (read t text) (read u text) := by
  unfold read
  rcases h.shapes with ⟨-, hs⟩ | ⟨base, ms, ns, ht, hu, -⟩
  · rw [hs]
    split
    · simp only [readBool]
      split
      · exact .ok rfl
      · split
        · exact .ok rfl
        · exact .dataAt ..
    · exact readNumbers_agrees h ..
    · exact readNumbers_agrees h ..
    · exact .ok rfl
    · simp only [readItem]
      split
      · exact .ok rfl
      · exact .dataAt ..
    · exact .notSupported ..
  · rw [ht, hu]
    exact .notSupported ..

theorem write_agrees {t u : Ty} (h : t.Mirrors u) (c : Content Ty) :
    Except.Agrees Eq (write t c) (write u c) := by
  cases c with
  | bool | ints | text => exact .ok rfl
  | reals vs =>
    rw [write, write, h.decimals?]
    rcases h.shapes with ⟨-, hs⟩ | ⟨base, ms, ns, ht, hu, -⟩
    · rw [hs]
      split
      · exact .ok rfl
      · exact .notSupported ..
    · rw [ht, hu]
      exact .notSupported ..
  | item i =>
    rw [write, write]
    rcases h.shapes with ⟨-, hs⟩ | ⟨base, ms, ns, ht, hu, -⟩
    · rw [hs]
      split
      · split
        · exact .ok rfl
        · exact .dataAt ..
      · exact .notSupported ..
    · rw [ht, hu]
      exact .notSupported ..
  | _ => exact .notSupported ..

end UiText

end TypedValues
