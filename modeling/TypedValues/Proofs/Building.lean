import TypedValues.Proofs.Typed
import TypedValues.Proofs.Reachable

/-! Building definitions. Every operation on a definition keeps it valid over the catalog, so that
whatever is complete can be sealed into it. -/

namespace TypedValues

namespace Definition

variable {K : Set Ty} {next : Nat} {d e : Definition}

/-- A definition of a host: valid, and not yet in any scope. -/
structure Sound (K : Set Ty) (d : Definition) : Prop extends d.Valid K where
  symbol : d.symbol = .detached d.name

theorem Sound.mono {K L : Set Ty} (h : d.Sound K) (hKL : K ⊆ L) : d.Sound L :=
  ⟨h.toValid.mono hKL, h.symbol⟩

theorem Sound.path (h : d.Sound K) : d.path = .child .root d.name := by
  rw [Definition.path, h.symbol]; rfl

theorem parts_of_blank {s : Shape} (h : s.Blank) : s.parts = [] := by
  cases s with
  | struct base members => obtain ⟨rfl, rfl⟩ := h; rfl
  | _ => simp_all [Shape.parts, Shape.Blank, Shape.base?, Shape.members, Shape.arguments]

theorem valid_enum {e : EnumDef} (h : e.Valid) : (Shape.enum e).Valid := by
  refine ⟨fun e' he => ?_, by simp, by simp [Shape.members], List.nodup_nil, by simp [Shape.members]⟩
  cases he
  exact h

theorem valid_of_no_members {s : Shape} (hitems : ∀ e, s ≠ .enum e)
    (halternatives : ∀ us, s = .variant us → us ≠ [] →
      2 ≤ us.length ∧ us.Pairwise fun a b => a.compatible b = false)
    (hmembers : s.members = []) : s.Valid :=
  ⟨fun e he => absurd he (hitems e), halternatives, by simp [hmembers], by simp [hmembers],
    by simp [hmembers]⟩

theorem valid_of_blank {s : Shape} (h : s.Blank) : s.Valid := by
  cases s with
  | struct base members => obtain ⟨rfl, rfl⟩ := h; exact valid_of_no_members (by simp) (by simp) rfl
  | enum e =>
    obtain rfl : e = .empty := h
    exact valid_enum ⟨by simp [EnumDef.empty], List.nodup_nil, by simp [EnumDef.empty]⟩
  | variant us =>
    obtain rfl : us = [] := h
    exact valid_of_no_members (by simp) (by simp) rfl
  | _ => exact valid_of_no_members (by simp) (by simp) rfl

theorem inherits_of_base?_eq_none {s : Shape} (h : s.base? = none) : s.Inherits := by
  intro b hb
  rw [h] at hb
  cases hb

theorem inherits_of_blank {s : Shape} (h : s.Blank) : s.Inherits := by
  apply inherits_of_base?_eq_none
  cases s with
  | struct base members => exact h.1
  | _ => rfl

theorem annotated_nil {d : Definition} (h : d.attributes = []) : d.Annotated := by
  have hliteral (key : String) : d.literal? key = none := by simp [literal?, attribute?, h]
  exact ⟨by simp [h], by simp [h], fun lo hi hlo _ => by simp [hliteral] at hlo⟩

theorem sound_fresh (name : String) {s : Shape} (h : s.Blank) : (fresh name s).Sound K := by
  refine ⟨⟨fun u hu => ?_, by simp [fresh], by simp [fresh], valid_of_blank h, inherits_of_blank h,
    annotated_nil rfl⟩, rfl⟩
  simp [parts, fresh, parts_of_blank h] at hu

theorem sound_cloneNamed (hK : Catalog K next) {t : Ty} (ht : t ∈ K) (name : String) :
    (t.cloneNamed name).Sound K := by
  obtain ⟨hmem, hcore⟩ := hK.resolved ht
  have hrelink := Shape.core_relink t.resolved.shape (Symbol.detached name).path
  refine ⟨⟨?_, by simp [Ty.cloneNamed], by simp [Ty.cloneNamed], ?_, ?_, ?_⟩, rfl⟩
  · intro u hu
    have hu : u ∈ (t.resolved.shape.relink (Symbol.detached name).path).parts := by
      simpa [parts, Ty.cloneNamed] using hu
    rw [← Shape.parts_core, hrelink, Shape.parts_core] at hu
    exact hK.part_mem hmem hu
  · exact (hK.valid _ hmem).shape.of_core_eq hrelink.symm
  · exact (hK.valid _ hmem).inherits.relink _
  · exact (hK.valid t ht).annotated.of_core_eq (hrelink.trans hcore.symm) rfl

theorem literal?_filter {attributes : List Attribute} {dropped key : String} (hkey : key ≠ dropped)
    (h : d.attributes = attributes.filter (·.name != dropped)) (he : e.attributes = attributes) :
    d.literal? key = e.literal? key := by
  have hfind : d.attribute? key = e.attribute? key := by
    rw [attribute?, attribute?, h, he, List.find?_filter]
    congr 1
    funext a
    by_cases ha : a.name = key <;> simp [ha, hkey]
  rw [literal?, hfind]; rfl

theorem Annotated.filter (h : e.Annotated) {dropped : String} (hmin : "min" ≠ dropped)
    (hmax : "max" ≠ dropped) (hcore : d.shape.core = e.shape.core)
    (hattributes : d.attributes = e.attributes.filter (·.name != dropped)) : d.Annotated := by
  refine ⟨fun a ha => ?_, ?_, fun lo hi hlo hhi => ?_⟩
  · rw [attributeFault?_of_core_eq hcore]
    exact h.faultless a (List.mem_of_mem_filter (hattributes ▸ ha))
  · rw [hattributes]
    exact h.keys.sublist (List.filter_sublist.map _)
  · rw [literal?_filter hmin hattributes rfl] at hlo
    rw [literal?_filter hmax hattributes rfl] at hhi
    rw [← ordered_core, hcore, ordered_core]
    exact h.bounds lo hi hlo hhi

theorem sound_aliasNamed (hK : Catalog K next) {t : Ty} (ht : t ∈ K) (name : String) :
    (t.aliasNamed name).Sound K := by
  have hrelink := Shape.core_relink t.shape (Symbol.detached name).path
  refine ⟨⟨?_, ?_, ?_, ?_, ?_, ?_⟩, rfl⟩
  · intro u hu
    rcases List.mem_append.1 hu with hu | hu
    · rw [Ty.aliasNamed, ← Shape.parts_core, hrelink, Shape.parts_core] at hu
      exact hK.part_mem ht hu
    · rw [List.mem_singleton.1 hu]; exact ht
  · rintro source ⟨⟩
    exact hrelink
  · rintro source ⟨⟩ a ha hname
    exact List.mem_filter.2 ⟨ha, by simpa using hname⟩
  · exact (hK.valid t ht).shape.of_core_eq hrelink.symm
  · exact (hK.valid t ht).inherits.relink _
  · exact (hK.valid t ht).annotated.filter (by decide) (by decide) hrelink rfl

theorem nodup_snoc {τ : Type} {f : τ → String} {xs : List τ} {x : τ} (h : (xs.map f).Nodup)
    (hnew : ∀ y ∈ xs, (f y == f x) = false) : ((xs ++ [x]).map f).Nodup := by
  rw [List.map_append, List.nodup_append]
  refine ⟨h, List.nodup_singleton _, fun a ha b hb => ?_⟩
  obtain ⟨y, hy, rfl⟩ := List.mem_map.1 ha
  rw [List.mem_singleton.1 hb]
  exact ne_of_beq_false (hnew y hy)

theorem value_of_literal?_snoc {a : Attribute} (hnew : d.attribute? a.name = none) {l : Literal}
    (h : ({ d with attributes := d.attributes ++ [a] } : Definition).literal? a.name = some l) :
    a.value = .literal l := by
  have hold : d.attributes.find? (·.name == a.name) = none := hnew
  rcases a with ⟨name, value⟩
  cases value <;> simp_all [literal?, attribute?]

theorem literal?_snoc_of_ne {a : Attribute} {key : String} (h : a.name ≠ key) :
    ({ d with attributes := d.attributes ++ [a] } : Definition).literal? key = d.literal? key := by
  simp [literal?, attribute?, h]

/-- An attribute that is accepted keeps the bounds in order. -/
theorem Annotated.snoc (h : d.Annotated) {a : Attribute} (hfault : attributeFault? d.shape a = none)
    (hnew : d.attribute? a.name = none) (hrange : d.rangeFault? a = none) :
    ({ d with attributes := d.attributes ++ [a] } : Definition).Annotated := by
  refine ⟨?_, ?_, fun lo hi hlo hhi => ?_⟩
  · intro b hb
    rcases List.mem_append.1 hb with hb | hb
    · exact h.faultless b hb
    · rw [List.mem_singleton.1 hb]; exact hfault
  · exact nodup_snoc h.keys (by simpa using List.find?_eq_none.1 hnew)
  · by_cases hmin : a.name = "min"
    · have hvalue := value_of_literal?_snoc hnew (hmin ▸ hlo)
      rw [literal?_snoc_of_ne (by rw [hmin]; decide)] at hhi
      simpa [rangeFault?, hmin, hvalue, hhi] using hrange
    · rw [literal?_snoc_of_ne hmin] at hlo
      by_cases hmax : a.name = "max"
      · have hvalue := value_of_literal?_snoc hnew (hmax ▸ hhi)
        simpa [rangeFault?, hmax, hvalue, hlo] using hrange
      · rw [literal?_snoc_of_ne hmax] at hhi
        exact h.bounds lo hi hlo hhi

theorem addAttribute_eq_ok {a : Attribute} (h : d.addAttribute a = .ok e) :
    attributeFault? d.shape a = none ∧ d.attribute? a.name = none ∧ d.rangeFault? a = none ∧
      e = { d with attributes := d.attributes ++ [a] } := by
  obtain ⟨_, hcheck, h⟩ := Except.bind_eq_ok.1 h
  have hfault : attributeFault? d.shape a = none := by
    rw [checkAttribute] at hcheck
    split at hcheck
    next => cases hcheck
    next hnone => exact hnone
  simp only at h
  split at h
  next => cases h
  next hnew =>
    split at h
    next => cases h
    next hrange =>
      cases h
      exact ⟨hfault, by simpa using hnew, Option.eq_none_iff_forall_ne_some.2 hrange, rfl⟩

theorem addAttribute_sound (hd : d.Sound K) {a : Attribute} (h : d.addAttribute a = .ok e) :
    e.Sound K := by
  obtain ⟨hfault, hnew, hrange, rfl⟩ := addAttribute_eq_ok h
  refine ⟨⟨hd.parts, hd.source, fun source hs b hb hname => ?_, hd.shape, hd.inherits,
    hd.annotated.snoc hfault hnew hrange⟩, hd.symbol⟩
  exact List.mem_append_left _ (hd.taken source hs b hb hname)

theorem ensureSource_eq_ok {c : SourceChange} {u : Unit} (h : d.ensureSource c = .ok u) :
    d.aliased = none := by
  unfold ensureSource at h
  split at h
  next => cases h
  next hnone => exact hnone

/-- Apart from numbers, attributes go by the kind of the type. -/
theorem Annotated.reshape (h : d.Annotated) {s : Shape} (hkind : s.kind = d.shape.kind)
    (hnumber : s.components? = none) : ({ d with shape := s } : Definition).Annotated := by
  have hfault (a : Attribute) : attributeFault? s a = attributeFault? d.shape a := by
    cases s <;> cases hs : d.shape <;> simp_all [Shape.kind, Shape.components?] <;> rfl
  have hordered (lo hi : Literal) : ordered s lo hi = ordered d.shape lo hi := by
    cases s <;> cases hs : d.shape <;> simp_all [Shape.kind, Shape.components?] <;> rfl
  refine ⟨fun a ha => ?_, h.keys, fun lo hi hlo hhi => ?_⟩
  · exact (hfault a).trans (h.faultless a ha)
  · exact (hordered lo hi).trans (h.bounds lo hi hlo hhi)

/-- What is not an alias may change its shape within its kind. -/
theorem Sound.reshape (hd : d.Sound K) (hsource : d.aliased = none) {s : Shape}
    (hparts : ∀ u ∈ s.parts, u ∈ K) (hvalid : s.Valid) (hinherits : s.Inherits)
    (hkind : s.kind = d.shape.kind) (hnumber : s.components? = none) :
    ({ d with shape := s } : Definition).Sound K := by
  refine ⟨⟨?_, ?_, ?_, hvalid, hinherits, hd.annotated.reshape hkind hnumber⟩, hd.symbol⟩
  · intro u hu
    rcases List.mem_append.1 hu with hu | hu
    · exact hparts u hu
    · rw [hsource] at hu; cases hu
  · intro source hs
    rw [hsource] at hs; cases hs
  · intro source hs
    rw [hsource] at hs; cases hs

theorem argumentTypes_mem {i : Nat} {arguments : List Argument} {types : List Ty}
    (h : d.argumentTypes i arguments = .ok types) : ∀ t ∈ types, .type t ∈ arguments := by
  induction arguments generalizing i types with
  | nil => cases h; simp
  | cons a rest ih =>
    cases a with
    | type t =>
      obtain ⟨ts, hts, h⟩ := Except.bind_eq_ok.1 h
      cases h
      exact List.forall_mem_cons.2
        ⟨List.mem_cons_self, fun u hu => List.mem_cons_of_mem _ (ih hts u hu)⟩
    | literal l => cases h

theorem parts_variant (alternatives : List Ty) : (Shape.variant alternatives).parts = alternatives := by
  simp [Shape.parts, Shape.arguments, Shape.base?, Shape.members]

/-- Alternatives none of which repeats one before it are pairwise incompatible. -/
theorem pairwise_of_repeated? {before us : List Ty} (h : repeated? before us = none) :
    us.Pairwise (fun a b => a.compatible b = false) ∧
      ∀ a ∈ before, ∀ b ∈ us, a.compatible b = false := by
  induction us generalizing before with
  | nil => simp
  | cons t rest ih =>
    rw [repeated?] at h
    split at h
    next => cases h
    next hnew =>
      obtain ⟨hrest, hbefore⟩ := ih h
      simp only [Bool.not_eq_true, List.any_eq_false] at hnew
      simp only [List.mem_append, List.mem_singleton] at hbefore
      refine ⟨List.pairwise_cons.2 ⟨hbefore t (.inr rfl), hrest⟩, fun a ha => ?_⟩
      exact List.forall_mem_cons.2 ⟨by simpa using hnew a ha, hbefore a (.inl ha)⟩

theorem instantiated_sound (hd : d.Sound K) (hsource : d.aliased = none) {types : List Ty}
    (htypes : ∀ t ∈ types, t ∈ K) {s : Shape} (h : d.instantiated types = .ok s) :
    ({ d with shape := s } : Definition).Sound K := by
  unfold instantiated at h
  split at h
  next t hs =>
    cases h
    exact hd.reshape hsource htypes (valid_of_no_members (by simp) (by simp) rfl)
      (inherits_of_base?_eq_none rfl) (by rw [hs]; rfl) rfl
  next t hs =>
    cases h
    exact hd.reshape hsource htypes (valid_of_no_members (by simp) (by simp) rfl)
      (inherits_of_base?_eq_none rfl) (by rw [hs]; rfl) rfl
  next => cases h
  next => cases h
  next hs =>
    split at h
    next => cases h
    next hcount =>
      split at h
      next => cases h
      next hrepeated =>
        cases h
        refine hd.reshape hsource ((parts_variant _).symm ▸ htypes)
          (valid_of_no_members (by simp) ?_ rfl) (inherits_of_base?_eq_none rfl)
          (by rw [hs]; rfl) rfl
        rintro us ⟨⟩ -
        exact ⟨Nat.le_of_not_lt hcount, (pairwise_of_repeated? hrepeated).1⟩
  next => cases h; exact hd

/-- Instantiating gives the shape with the types among the arguments, and leaves the rest. -/
theorem instantiate_ensures (d : Definition) (arguments : List Argument) :
    (d.instantiate arguments).Ensures fun e => ∃ types s, d.aliased = none ∧
      (∀ t ∈ types, .type t ∈ arguments) ∧ d.instantiated types = .ok s ∧ e = { d with shape := s } := by
  refine (Attempt.ensures_ofExcept fun _ h => ensureSource_eq_ok h).bind fun _ hsource => ?_
  have instantiates : (do
      let types ← d.argumentTypes 0 arguments
      let shape ← d.instantiated types
      Attempt.emit (.instantiated d.path types.length)
      return { d with shape } : Attempt Error Definition).Ensures fun e => ∃ types s, d.aliased = none ∧
        (∀ t ∈ types, .type t ∈ arguments) ∧ d.instantiated types = .ok s ∧ e = { d with shape := s } := by
    refine (Attempt.ensures_ofExcept fun ts hts => argumentTypes_mem hts).bind fun ts hts => ?_
    refine (Attempt.ensures_ofExcept fun s hs => hs).bind fun s hs => ?_
    exact (Attempt.ensures_true _).bind fun _ _ => Attempt.ensures_pure ⟨ts, s, hsource, hts, hs, rfl⟩
  simp only
  split
  · exact Attempt.ensures_fail_bind _ _
  · split
    · exact Attempt.ensures_fail_bind _ _
    · exact instantiates

theorem instantiate_sound (hd : d.Sound K) {arguments : List Argument}
    (ha : ∀ t, .type t ∈ arguments → t ∈ K) :
    (d.instantiate arguments).Ensures fun e => e.Sound K := by
  intro p e he
  obtain ⟨types, s, hsource, htypes, hs, rfl⟩ := d.instantiate_ensures arguments p e he
  exact instantiated_sound hd hsource (fun t ht => ha t (htypes t ht)) hs

theorem ensureName_eq_ok {name : String} {u : Unit} (h : d.ensureName name = .ok u) :
    nameFault? name = none := by
  unfold ensureName at h
  split at h
  next => cases h
  next hnone => exact hnone

theorem addItem_eq_ok {i : EnumItem} (h : d.addItem i = .ok e) : ∃ items, d.aliased = none ∧
    nameFault? i.name = none ∧ d.shape = .enum items ∧ items.find? i.name = none ∧
    e = { d with shape := .enum { items with items := items.items ++ [i] } } := by
  obtain ⟨_, hsource, h⟩ := Except.bind_eq_ok.1 h
  obtain ⟨_, hname, h⟩ := Except.bind_eq_ok.1 h
  split at h
  next items hs =>
    split at h
    next => cases h
    next hnew =>
      cases h
      exact ⟨items, ensureSource_eq_ok hsource, ensureName_eq_ok hname, hs, by simpa using hnew, rfl⟩
  next => cases h

theorem addItem_sound (hd : d.Sound K) {i : EnumItem} (h : d.addItem i = .ok e) : e.Sound K := by
  obtain ⟨items, hsource, hname, hs, hnew, rfl⟩ := addItem_eq_ok h
  have hvalid := hd.shape.items items hs
  refine hd.reshape hsource (fun u hu => absurd hu List.not_mem_nil)
    (valid_enum ⟨?_, ?_, ?_⟩) (inherits_of_base?_eq_none rfl) (by rw [hs]; rfl) rfl
  · intro j hj
    rcases List.mem_append.1 hj with hj | hj
    · exact hvalid.named j hj
    · rw [List.mem_singleton.1 hj]; exact hname
  · exact nodup_snoc hvalid.names (List.findIdx?_eq_none_iff.1 hnew)
  · intro j hj
    rw [List.length_append]
    exact Nat.lt_add_right _ (hvalid.default j hj)

theorem setDefaultItem_eq_ok {name : String} (h : d.setDefaultItem name = .ok e) : ∃ items i,
    d.aliased = none ∧ d.shape = .enum items ∧ items.find? name = some i ∧
    e = { d with shape := .enum { items with defaultItem := some i } } := by
  obtain ⟨_, hsource, h⟩ := Except.bind_eq_ok.1 h
  split at h
  next items hs =>
    split at h
    next i hi =>
      cases h
      exact ⟨items, i, ensureSource_eq_ok hsource, hs, hi, rfl⟩
    next => cases h
  next => cases h

theorem setDefaultItem_sound (hd : d.Sound K) {name : String} (h : d.setDefaultItem name = .ok e) :
    e.Sound K := by
  obtain ⟨items, i, hsource, hs, hi, rfl⟩ := setDefaultItem_eq_ok h
  have hvalid := hd.shape.items items hs
  refine hd.reshape hsource (fun u hu => absurd hu List.not_mem_nil)
    (valid_enum ⟨hvalid.named, hvalid.names, fun j hj => ?_⟩) (inherits_of_base?_eq_none rfl)
    (by rw [hs]; rfl) rfl
  cases hj
  exact EnumDef.find?_lt hi

theorem parts_struct (base : Option Ty) (members : List Member) :
    (Shape.struct base members).parts = base.toList ++ members.flatMap Member.parts := rfl

theorem addMember_eq_ok {m : Member} (h : d.addMember m = .ok e) : ∃ base members, d.aliased = none ∧
    nameFault? m.name = none ∧ d.shape = .struct base members ∧ findMember? members m.name = none ∧
    e = { d with shape := .struct base (members ++ [m.attach d.path]) } := by
  obtain ⟨_, hsource, h⟩ := Except.bind_eq_ok.1 h
  obtain ⟨_, hname, h⟩ := Except.bind_eq_ok.1 h
  split at h
  next base members hs =>
    refine ⟨base, members, ensureSource_eq_ok hsource, ensureName_eq_ok hname, hs, ?_⟩
    have added (h : (if (findMember? members m.name).isSome then d.refuse (.memberRepeated m.name)
        else return { d with shape := .struct base (members ++ [m.attach d.path]) }) = .ok e) :
        findMember? members m.name = none ∧
          e = { d with shape := .struct base (members ++ [m.attach d.path]) } := by
      split at h
      next => cases h
      next hnew => cases h; exact ⟨by simpa using hnew, rfl⟩
    cases base with
    | none => exact added h
    | some b =>
      by_cases hb : (findMember? b.shape.members m.name).isSome
      · simp only [hb, if_true] at h
        obtain ⟨_, hrefused, -⟩ := Except.bind_eq_ok.1 h
        cases hrefused
      · simp only [hb] at h
        exact added h
  next => cases h

theorem addMember_sound (hd : d.Sound K) {m : Member} (hparts : ∀ u ∈ m.parts, u ∈ K)
    (hdefault : ∀ n, m.default = some n → m.Holds n) (h : d.addMember m = .ok e) : e.Sound K := by
  obtain ⟨base, members, hsource, hname, hs, hnew, rfl⟩ := addMember_eq_ok h
  have hold : ∀ u ∈ d.shape.parts, u ∈ K := fun u hu => hd.parts u (List.mem_append_left _ hu)
  have hvalid := hd.shape
  have hinherits := hd.inherits
  rw [hs] at hold hvalid hinherits
  refine hd.reshape hsource ?_ ⟨by simp, by simp, ?_, ?_, ?_⟩ ?_ (by rw [hs]; rfl) rfl
  · intro u hu
    rw [parts_struct, List.flatMap_append, ← List.append_assoc, List.mem_append] at hu
    rcases hu with hu | hu
    · exact hold u hu
    · rw [List.flatMap_singleton] at hu
      exact hparts u hu
  · intro x hx
    rcases List.mem_append.1 hx with hx | hx
    · exact hvalid.named x hx
    · rw [List.mem_singleton.1 hx]; exact hname
  · exact nodup_snoc hvalid.names (List.findIdx?_eq_none_iff.1 hnew)
  · intro x hx
    rcases List.mem_append.1 hx with hx | hx
    · exact hvalid.defaults x hx
    · rw [List.mem_singleton.1 hx]
      exact fun n hn => Member.holds_attach.2 (hdefault n hn)
  · exact fun b hb => (hinherits b hb).trans (List.prefix_append _ _)

theorem setBase_eq_ok {t : Ty} (h : d.setBase t = .ok e) : ∃ members base inherited, d.aliased = none ∧
    d.shape = .struct none members ∧ t.shape = .struct base inherited ∧
    (∀ m ∈ members, findMember? inherited m.name = none) ∧
    e = { d with shape := .struct (some t) (inherited ++ members) } := by
  obtain ⟨_, hsource, h⟩ := Except.bind_eq_ok.1 h
  split at h
  next => cases h
  next members hs =>
    split at h
    next base inherited ht =>
      split at h
      next => cases h
      next hnone =>
        cases h
        refine ⟨members, base, inherited, ensureSource_eq_ok hsource, hs, ht, fun m hm => ?_, rfl⟩
        simpa using List.find?_eq_none.1 hnone m hm
    next => cases h
  next => cases h

theorem setBase_sound (hK : Catalog K next) (hd : d.Sound K) {t : Ty} (ht : t ∈ K)
    (h : d.setBase t = .ok e) : e.Sound K := by
  obtain ⟨members, base, inherited, hsource, hs, ht', hclash, rfl⟩ := setBase_eq_ok h
  have hold : ∀ u ∈ d.shape.parts, u ∈ K := fun u hu => hd.parts u (List.mem_append_left _ hu)
  have hvalid := hd.shape
  have hbase : (Shape.struct base inherited).Valid := ht' ▸ (hK.valid t ht).shape
  rw [hs] at hold hvalid
  have hinherited : t.shape.members = inherited := congrArg Shape.members ht'
  refine hd.reshape hsource ?_ ⟨by simp, by simp, ?_, ?_, ?_⟩ ?_ (by rw [hs]; rfl) rfl
  · intro u hu
    rw [parts_struct, List.flatMap_append, List.mem_append, List.mem_append] at hu
    rcases hu with hu | hu | hu
    · rw [List.mem_singleton.1 hu]; exact ht
    · refine hK.part_mem ht (List.mem_append_right _ ?_)
      rw [hinherited]
      exact hu
    · exact hold u hu
  · intro x hx
    rcases List.mem_append.1 hx with hx | hx
    · exact hbase.named x hx
    · exact hvalid.named x hx
  · refine List.map_append ▸ List.nodup_append.2 ⟨hbase.names, hvalid.names, fun a ha b hb => ?_⟩
    obtain ⟨x, hx, rfl⟩ := List.mem_map.1 ha
    obtain ⟨y, hy, rfl⟩ := List.mem_map.1 hb
    exact ne_of_beq_false (List.findIdx?_eq_none_iff.1 (hclash y hy) x hx)
  · intro x hx
    rcases List.mem_append.1 hx with hx | hx
    · exact hbase.defaults x hx
    · exact hvalid.defaults x hx
  · rintro b ⟨⟩
    rw [hinherited]
    exact List.prefix_append _ _

end Definition

end TypedValues
