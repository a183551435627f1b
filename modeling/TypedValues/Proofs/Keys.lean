import TypedValues.Proofs.Overwriting
import TypedValues.Proofs.Conversion

/-! Known keys. A struct looks up its members in an object and a variant its two keys; other keys, and the order
of all of them, make no difference to what is read, nor to the error if nothing is. -/

namespace TypedValues

namespace Attempt

variable {ε δ α β : Type}

/-- The attempts end with the same value or error under either policy, whatever events they have on the way. -/
def EndsLike (x y : Attempt ε α) : Prop := ∀ p, (x.run p).outcome = (y.run p).outcome

theorem EndsLike.refl (x : Attempt ε α) : x.EndsLike x := fun _ => rfl

theorem EndsLike.bind {x y : Attempt ε α} {f g : α → Attempt ε β} (h : x.EndsLike y)
    (hfg : ∀ a, (f a).EndsLike (g a)) : (x >>= f).EndsLike (y >>= g) := by
  intro p
  have hp := h p
  simp only [run_bind, Result.andThen]
  rw [hp]
  cases (y.run p).outcome with
  | ok a => exact hfg a p
  | error e => rfl
  | panic e => rfl

theorem EndsLike.under {x y : Attempt Error α} (h : x.EndsLike y) (site : Site) :
    (x.under site).EndsLike (y.under site) := by
  intro p
  have hp := h p
  simp only [Attempt.under, Attempt.mapError, Result.mapError]
  rw [hp]
  cases (y.run p).outcome <;> rfl

theorem EndsLike.record (events events' : List Event) :
    (Attempt.record events : Attempt ε Unit).EndsLike (.record events') := fun _ => rfl

end Attempt

theorem Option.rel_of_isSome {α β : Type} {R : α → β → Prop} {x : Option α} {y : Option β}
    (hsome : x.isSome = y.isSome) (h : ∀ a b, x = some a → y = some b → R a b) : Option.Rel R x y := by
  cases x <;> cases y
  · exact .none
  · cases hsome
  · cases hsome
  · exact .some (h _ _ rfl rfl)

theorem Field.get?_mem {fields : List Field} {key : String} {v : Document} (h : Field.get? key fields = some v) :
    ⟨key, v⟩ ∈ fields := by
  induction fields with
  | nil => cases h
  | cons f rest ih =>
    rcases f with ⟨other, value⟩
    rw [get?] at h
    split at h
    next hkey =>
      cases h
      cases hkey
      exact List.mem_cons_self
    next => exact List.mem_cons_of_mem _ (ih h)

theorem Field.get?_eq_some_iff {fields : List Field} (hkeys : (fields.map (·.key)).Nodup) {key : String}
    {v : Document} : Field.get? key fields = some v ↔ ⟨key, v⟩ ∈ fields :=
  ⟨get?_mem, Content.Field.get?_of_nodup hkeys ⟨key, v⟩⟩

namespace Document

theorem exists_array {d : Document} (h : d.kind = .array) : ∃ ds, d = .array ds := by
  cases d with
  | array ds => exact ⟨ds, rfl⟩
  | _ => cases h

theorem exists_object {d : Document} (h : d.kind = .object) : ∃ fields, d = .object fields := by
  cases d with
  | object fields => exact ⟨fields, rfl⟩
  | _ => cases h

/-- The same document up to the order of keys, at any depth. -/
inductive Reordered : Document → Document → Prop where
  | same (d : Document) : Reordered d d
  | array {ds ds' : List Document} (length : ds.length = ds'.length)
      (items : ∀ (i : Nat) (d d' : Document), ds[i]? = some d → ds'[i]? = some d' → Reordered d d') :
      Reordered (.array ds) (.array ds')
  | object {fields fields' : List Field}
      (keys : ∀ key, (Field.get? key fields).isSome = (Field.get? key fields').isSome)
      (values : ∀ key d d', Field.get? key fields = some d → Field.get? key fields' = some d' → Reordered d d') :
      Reordered (.object fields) (.object fields')

theorem literals?_congr {ds ds' : List Document} (h : ds.map literal? = ds'.map literal?) :
    literals? ds = literals? ds' := by
  induction ds generalizing ds' with
  | nil =>
    cases ds' with
    | nil => rfl
    | cons => cases h
  | cons d ds ih =>
    cases ds' with
    | nil => cases h
    | cons d' ds' =>
      obtain ⟨hd, hds⟩ := List.cons.inj h
      rw [literals?, literals?, hd, ih hds]

namespace Reordered

variable {d d' : Document}

theorem kind (h : d.Reordered d') : d.kind = d'.kind := by
  cases h <;> rfl

theorem literal? (h : d.Reordered d') : d.literal? = d'.literal? := by
  induction h with
  | same => rfl
  | @array ds ds' hlength _ ih =>
    rw [Document.literal?, Document.literal?, literals?_congr]
    refine List.ext_getElem (by simpa using hlength) fun i hi hi' => ?_
    rw [List.length_map] at hi hi'
    rw [List.getElem_map, List.getElem_map]
    exact ih i _ _ (List.getElem?_eq_getElem hi) (List.getElem?_eq_getElem hi')
  | object => rfl

theorem text_iff (h : d.Reordered d') (s : String) : d = .text s ↔ d' = .text s := by
  cases h <;> simp

theorem of_perm {fields fields' : List Field} (hperm : fields.Perm fields')
    (hkeys : (fields.map (·.key)).Nodup) : Reordered (.object fields) (.object fields') := by
  have hget (key : String) : Field.get? key fields = Field.get? key fields' := by
    ext v
    rw [Field.get?_eq_some_iff hkeys, Field.get?_eq_some_iff ((hperm.map _).nodup_iff.1 hkeys), hperm.mem_iff]
  refine .object (fun key => by rw [hget]) fun key d d' hd hd' => ?_
  cases (hget key ▸ hd).symm.trans hd'
  exact .same d

end Reordered

/-- The documents are the same for a type: up to the order of keys, and up to keys that are not members where a
struct is read, or not those of a variant where one is read. -/
inductive SameFor : Ty → Document → Document → Prop where
  | reordered {t : Ty} {d d' : Document} (h : d.Reordered d') : SameFor t d d'
  | optional {t u : Ty} {d d' : Document} (hs : t.shape = .optional (some u)) (h : SameFor u d d') : SameFor t d d'
  | array {t u : Ty} {ds ds' : List Document} (hs : t.shape = .array (some u)) (length : ds.length = ds'.length)
      (items : ∀ (i : Nat) (d d' : Document), ds[i]? = some d → ds'[i]? = some d' → SameFor u d d') :
      SameFor t (.array ds) (.array ds')
  | struct {t : Ty} {base : Option Ty} {members : List Member} {fields fields' : List Field}
      (hs : t.shape = .struct base members)
      (keys : ∀ m ∈ members, (Field.get? m.name fields).isSome = (Field.get? m.name fields').isSome)
      (values : ∀ m ∈ members, ∀ d d', Field.get? m.name fields = some d → Field.get? m.name fields' = some d' →
        SameFor m.type d d') : SameFor t (.object fields) (.object fields')
  | variant {t : Ty} {us : List Ty} {fields fields' : List Field} (hs : t.shape = .variant us)
      (keys : ∀ key ∈ [variantTypeKey, variantValueKey],
        (Field.get? key fields).isSome = (Field.get? key fields').isSome)
      (types : ∀ d d', Field.get? variantTypeKey fields = some d → Field.get? variantTypeKey fields' = some d' →
        d.Reordered d')
      (values : ∀ name i u, Field.get? variantTypeKey fields = some (.text name) →
        findAlternative? us name = some i → us[i]? = some u →
        ∀ d d', Field.get? variantValueKey fields = some d → Field.get? variantValueKey fields' = some d' →
          SameFor u d d') : SameFor t (.object fields) (.object fields')

namespace SameFor

variable {t u : Ty} {d d' : Document}

theorem refl (t : Ty) (d : Document) : SameFor t d d := .reordered (.same d)

/-- Keys that are no members make no difference to a struct, in any order. -/
theorem of_lookups {base : Option Ty} {members : List Member} (hs : t.shape = .struct base members)
    {fields fields' : List Field} (h : ∀ m ∈ members, Field.get? m.name fields = Field.get? m.name fields') :
    SameFor t (.object fields) (.object fields') := by
  refine .struct hs (fun m hm => by rw [h m hm]) fun m hm d d' hd hd' => ?_
  cases (h m hm ▸ hd).symm.trans hd'
  exact refl m.type d

theorem of_extra {base : Option Ty} {members : List Member} (hs : t.shape = .struct base members) {f : Field}
    (hf : ∀ m ∈ members, m.name ≠ f.key) (fields : List Field) :
    SameFor t (.object fields) (.object (f :: fields)) :=
  of_lookups hs fun m hm => by rw [Field.get?, if_neg (hf m hm).symm]

theorem kind (h : SameFor t d d') : d.kind = d'.kind := by
  induction h with
  | reordered h => exact h.kind
  | optional _ _ ih => exact ih
  | array | struct | variant => rfl

theorem null_iff (h : SameFor t d d') : d = .null ↔ d' = .null := by
  have hkind := h.kind
  cases d <;> cases d' <;> simp_all [Document.kind]

theorem of_optional (hs : t.shape = .optional (some u)) (h : SameFor t d d') : SameFor u d d' := by
  cases h with
  | reordered h => exact .reordered h
  | optional hs' h => cases hs.symm.trans hs'; exact h
  | array hs' | struct hs' | variant hs' => cases hs.symm.trans hs'

theorem of_array (hs : t.shape = .array (some u)) {ds ds' : List Document}
    (h : SameFor t (.array ds) (.array ds')) : List.Forall₂ (SameFor u) ds ds' := by
  have pairs (hlength : ds.length = ds'.length)
      (hitems : ∀ (i : Nat) (d d' : Document), ds[i]? = some d → ds'[i]? = some d' → SameFor u d d') :
      List.Forall₂ (SameFor u) ds ds' :=
    List.forall₂_of_length_eq_of_get hlength fun i hi hi' =>
      hitems i _ _ (List.getElem?_eq_getElem hi) (List.getElem?_eq_getElem hi')
  cases h with
  | reordered h =>
    cases h with
    | same => exact List.forall₂_same.2 fun d _ => refl u d
    | array hlength hitems => exact pairs hlength fun i d d' hd hd' => .reordered (hitems i d d' hd hd')
  | array hs' hlength hitems => cases hs.symm.trans hs'; exact pairs hlength hitems
  | optional hs' => cases hs.symm.trans hs'

theorem of_struct {base : Option Ty} {members : List Member} (hs : t.shape = .struct base members)
    {fields fields' : List Field} (h : SameFor t (.object fields) (.object fields')) {m : Member}
    (hm : m ∈ members) : Option.Rel (SameFor m.type) (Field.get? m.name fields) (Field.get? m.name fields') := by
  cases h with
  | reordered h =>
    cases h with
    | same => exact Option.rel_of_isSome rfl fun d d' hd hd' => by cases hd.symm.trans hd'; exact refl m.type d
    | object keys values =>
      exact Option.rel_of_isSome (keys m.name) fun d d' hd hd' => .reordered (values _ d d' hd hd')
  | struct hs' keys values =>
    cases hs.symm.trans hs'
    exact Option.rel_of_isSome (keys m hm) (values m hm)
  | optional hs' | variant hs' => cases hs.symm.trans hs'

/-- Where a type is read that has no components, only the order of keys may differ. -/
theorem leaf (h : SameFor t d d') (hkind : t.kind ∉ [.struct, .variant]) (harguments : t.shape.arguments = []) :
    d.Reordered d' := by
  cases h with
  | reordered h => exact h
  | optional hs | array hs => simp [hs, Shape.arguments] at harguments
  | struct hs | variant hs => simp [Ty.kind, hs, Shape.kind] at hkind

/-- Where a variant is read, the same alternative is named, or none, and its value is the same for it. -/
theorem of_variant {us : List Ty} (hs : t.shape = .variant us) {fields fields' : List Field}
    (h : SameFor t (.object fields) (.object fields')) :
    (∀ name, Field.get? variantTypeKey fields = some (.text name) ↔
      Field.get? variantTypeKey fields' = some (.text name)) ∧
    (Field.get? variantValueKey fields).isSome = (Field.get? variantValueKey fields').isSome ∧
    ∀ name i u, Field.get? variantTypeKey fields = some (.text name) → findAlternative? us name = some i →
      us[i]? = some u → ∀ d d', Field.get? variantValueKey fields = some d →
        Field.get? variantValueKey fields' = some d' → SameFor u d d' := by
  have named {x y : Option Document} (hxy : Option.Rel Reordered x y) (name : String) :
      x = some (.text name) ↔ y = some (.text name) := by
    cases hxy with
    | none => rfl
    | some h => simp only [Option.some.injEq, h.text_iff]
  cases h with
  | reordered h =>
    cases h with
    | same =>
      refine ⟨fun _ => .rfl, rfl, fun _ _ u _ _ _ d d' hd hd' => ?_⟩
      cases hd.symm.trans hd'
      exact refl u d
    | object keys values =>
      exact ⟨named (Option.rel_of_isSome (keys _) (values _)), keys _,
        fun _ _ _ _ _ _ d d' hd hd' => .reordered (values _ d d' hd hd')⟩
  | variant hs' keys types values =>
    cases hs.symm.trans hs'
    rw [List.forall_mem_cons, List.forall_mem_singleton] at keys
    exact ⟨named (Option.rel_of_isSome keys.1 types), keys.2, values⟩
  | optional hs' | struct hs' => cases hs.symm.trans hs'

end SameFor

end Document

/-- The member is read from what is found for it, or has its default. -/
def decodeMember (m : Member) (found : Option Document) : Attempt Error (Node Ty) :=
  Attempt.under (.member m.path) (match found with
    | some d => return ⟨m.type, ← decode m.type d⟩
    | none => m.defaultNode)

theorem decodeMembers_cons (m : Member) (ms : List Member) (fields : List Field) :
    decodeMembers (m :: ms) fields = (do
      let n ← decodeMember m (Field.get? m.name fields)
      return n :: (← decodeMembers ms fields)) := by
  rcases m with ⟨symbol, type, default⟩
  rw [decodeMembers]
  rfl

theorem decodeAlternative_of_get {t u : Ty} {us : List Ty} {i : Nat} (h : us[i]? = some u) (d : Document) :
    decodeAlternative t us i d = (do return ⟨u, ← decode u d⟩) := by
  induction us generalizing i with
  | nil => cases h
  | cons u' us ih =>
    cases i with
    | zero => cases h; rw [decodeAlternative]
    | succ i => rw [decodeAlternative, ih h]

theorem findAlternative?_lt {us : List Ty} {name : String} {i : Nat} (h : findAlternative? us name = some i) :
    i < us.length := by
  have found {p : Ty → Bool} (h : us.findIdx? p = some i) : i < us.length :=
    (List.findIdx?_eq_some_iff_getElem.1 h).1
  unfold findAlternative? at h
  cases hpath : us.findIdx? (·.path.text == name) with
  | some j => rw [hpath] at h; exact found (hpath.trans h)
  | none =>
    rw [hpath] at h
    cases hname : us.findIdx? (·.name == name) with
    | some j => rw [hname] at h; exact found (hname.trans h)
    | none => rw [hname] at h; exact found h

theorem variantFields_eq_error {t : Ty} {us : List Ty} {fields : List Field}
    (h : ∀ name, Field.get? variantTypeKey fields ≠ some (.text name)) :
    variantFields t us fields = .error (.dataAt t.path (.missingKey variantTypeKey)) := by
  unfold variantFields
  split
  next name hname => exact absurd hname (h name)
  next => rfl

theorem variantFields_eq {t : Ty} {us : List Ty} {fields : List Field} {name : String}
    (h : Field.get? variantTypeKey fields = some (.text name)) : variantFields t us fields =
      match Field.get? variantValueKey fields with
      | some inner =>
        match findAlternative? us name with
        | some i => .ok (i, inner)
        | none => .error (.dataAt t.path (.noAlternativeNamed name))
      | none => .error (.dataAt t.path (.missingKey variantValueKey)) := by
  cases hvalue : Field.get? variantValueKey fields with
  | none => simp only [variantFields, h, hvalue]
  | some inner => cases hi : findAlternative? us name <;> simp only [variantFields, h, hvalue, hi]

theorem variantFields_eq_ok {t : Ty} {us : List Ty} {fields : List Field} {i : Nat} {d : Document} :
    variantFields t us fields = .ok (i, d) ↔ ∃ name, Field.get? variantTypeKey fields = some (.text name) ∧
      Field.get? variantValueKey fields = some d ∧ findAlternative? us name = some i := by
  by_cases hname : ∃ name, Field.get? variantTypeKey fields = some (.text name)
  · obtain ⟨name, hname⟩ := hname
    rw [variantFields_eq hname, hname]
    cases Field.get? variantValueKey fields with
    | none => simp
    | some inner => cases hi : findAlternative? us name <;> simp [hi, and_comm]
  · rw [variantFields_eq_error (not_exists.1 hname)]
    exact iff_of_false nofun fun ⟨name, h, _⟩ => hname ⟨name, h⟩

theorem decodeScalar_reordered (t : Ty) {d d' : Document} (h : d.Reordered d') :
    decodeScalar t d = decodeScalar t d' := by
  have hscalar : scalarLiteral? d = scalarLiteral? d' := by
    have hliteral := h.literal?
    cases h <;> first | rfl | exact hliteral
  unfold decodeScalar unexpected
  rw [hscalar, h.kind]

theorem decodeItem_reordered (t : Ty) (e : EnumDef) {d d' : Document} (h : d.Reordered d') :
    decodeItem t e d = decodeItem t e d' := by
  cases h <;> rfl

theorem attemptElements_endsLike {σ τ α : Type} {f : σ → Attempt Error α} {g : τ → Attempt Error α} {xs : List σ}
    {ys : List τ} (i : Nat) (h : List.Forall₂ (fun x y => (f x).EndsLike (g y)) xs ys) :
    (attemptElements f i xs).EndsLike (attemptElements g i ys) := by
  induction h generalizing i with
  | nil => exact .refl _
  | cons hxy _ ih => exact (hxy.under _).bind fun a => (ih (i + 1)).bind fun as => .refl _

theorem decodeMembers_endsLike {ms : List Member} {fields fields' : List Field}
    (h : ∀ m ∈ ms,
      (decodeMember m (Field.get? m.name fields)).EndsLike (decodeMember m (Field.get? m.name fields'))) :
    (decodeMembers ms fields).EndsLike (decodeMembers ms fields') := by
  induction ms with
  | nil => exact .refl _
  | cons m ms ih =>
    rw [List.forall_mem_cons] at h
    rw [decodeMembers_cons, decodeMembers_cons]
    exact h.1.bind fun n => (ih h.2).bind fun ns => .refl _

/-- Fields that are the same for a variant give the same alternative and values that are the same for it, or are
refused alike. -/
theorem variantFields_sameFor {t : Ty} {us : List Ty} (hs : t.shape = .variant us) {fields fields' : List Field}
    (h : Document.SameFor t (.object fields) (.object fields')) :
    variantFields t us fields = variantFields t us fields' ∨
      ∃ i d d', variantFields t us fields = .ok (i, d) ∧ variantFields t us fields' = .ok (i, d') ∧
        ∀ u, us[i]? = some u → Document.SameFor u d d' := by
  obtain ⟨hnames, hvalue, hvalues⟩ := h.of_variant hs
  by_cases hname : ∃ name, Field.get? variantTypeKey fields = some (.text name)
  · obtain ⟨name, hname⟩ := hname
    rw [variantFields_eq hname, variantFields_eq ((hnames name).1 hname)]
    cases hd : Field.get? variantValueKey fields with
    | none =>
      rw [hd, Option.isSome_none, eq_comm, Option.isSome_eq_false_iff, Option.isNone_iff_eq_none] at hvalue
      rw [hvalue]
      exact .inl rfl
    | some d =>
      rw [hd, Option.isSome_some, eq_comm, Option.isSome_iff_exists] at hvalue
      obtain ⟨d', hd'⟩ := hvalue
      rw [hd']
      cases hi : findAlternative? us name with
      | none => exact .inl rfl
      | some i => exact .inr ⟨i, d, d', rfl, rfl, fun u hu => hvalues name i u hname hi hu d d' hd hd'⟩
  · rw [variantFields_eq_error (not_exists.1 hname),
      variantFields_eq_error fun name h => hname ⟨name, (hnames name).2 h⟩]
    exact .inl rfl

/-- The fields of a variant name one of its alternatives, if they do not fail, and its value is read. -/
theorem decode_named {t : Ty} {us : List Ty} (hs : t.shape = .variant us) {fields : List Field} {i : Nat}
    {d : Document} (h : variantFields t us fields = .ok (i, d)) :
    ∃ u, us[i]? = some u ∧ decode t (.object fields) = (do return .variant i ⟨u, ← decode u d⟩) := by
  obtain ⟨name, -, -, hi⟩ := variantFields_eq_ok.1 h
  have hu := List.getElem?_eq_getElem (findAlternative?_lt hi)
  refine ⟨_, hu, ?_⟩
  rw [decode_variant hs, h]
  change ((do return .variant i (← decodeAlternative t us i d)) : Attempt Error (Content Ty)) = _
  rw [decodeAlternative_of_get hu, bind_assoc]
  simp only [pure_bind]

section

variable {t : Ty} {d d' : Document}

theorem unexpected_congr {α : Type} (what : Expectation) (hkind : d.kind = d'.kind) :
    (unexpected t what d : Except Error α) = unexpected t what d' := by
  rw [unexpected, unexpected, hkind]

variable (ih : ∀ u ∈ t.shape.components, ∀ {d d' : Document}, Document.SameFor u d d' →
  (decode u d).EndsLike (decode u d'))

include ih

theorem decode_sameFor_optional {argument : Option Ty} (hs : t.shape = .optional argument)
    (h : Document.SameFor t d d') : (decode t d).EndsLike (decode t d') := by
  by_cases hd : d = .null
  case pos =>
    rw [hd, h.null_iff.1 hd]
    exact .refl _
  have hd' : d' ≠ .null := mt h.null_iff.2 hd
  cases argument with
  | none =>
    rw [decode_optional_none hs hd, decode_optional_none hs hd']
    exact .refl _
  | some u =>
    rw [decode_optional hs hd, decode_optional hs hd']
    exact (ih u (by simp [hs, Shape.components, Shape.arguments]) (h.of_optional hs)).bind fun c => .refl _

theorem decode_sameFor_array {argument : Option Ty} (hs : t.shape = .array argument)
    (h : Document.SameFor t d d') : (decode t d).EndsLike (decode t d') := by
  by_cases hd : d.kind = .array
  case neg =>
    rw [decode_of_not_array hs hd, decode_of_not_array hs (h.kind ▸ hd), unexpected_congr _ h.kind]
    exact .refl _
  obtain ⟨ds, rfl⟩ := Document.exists_array hd
  obtain ⟨ds', rfl⟩ := Document.exists_array (h.kind ▸ hd)
  cases argument with
  | none =>
    rw [decode_array_none hs, decode_array_none hs]
    exact .refl _
  | some u =>
    rw [decode_array hs, decode_array hs]
    refine (attemptElements_endsLike 0 ((h.of_array hs).imp fun d d' hd => ?_)).bind fun ns => .refl _
    exact (ih u (by simp [hs, Shape.components, Shape.arguments]) hd).bind fun c => .refl _

theorem decode_sameFor_struct {base : Option Ty} {members : List Member} (hs : t.shape = .struct base members)
    (h : Document.SameFor t d d') : (decode t d).EndsLike (decode t d') := by
  have ht : t.kind ∈ [.struct, .variant] := by simp [Ty.kind, hs, Shape.kind]
  by_cases hd : d.kind = .object
  case neg =>
    rw [decode_of_not_object ht hd, decode_of_not_object ht (h.kind ▸ hd), unexpected_congr _ h.kind]
    exact .refl _
  obtain ⟨fields, rfl⟩ := Document.exists_object hd
  obtain ⟨fields', rfl⟩ := Document.exists_object (h.kind ▸ hd)
  rw [decode_struct hs, decode_struct hs]
  refine (Attempt.EndsLike.record _ _).bind fun _ => ?_
  refine (decodeMembers_endsLike fun m hm => ?_).bind fun ns => .refl _
  have hfound := h.of_struct hs hm
  generalize Field.get? m.name fields = x, Field.get? m.name fields' = y at hfound
  cases hfound with
  | none => exact .refl _
  | some hd => exact ((ih m.type (hs ▸ List.mem_map_of_mem hm) hd).bind fun c => .refl _).under _

theorem decode_sameFor_variant {us : List Ty} (hs : t.shape = .variant us) (h : Document.SameFor t d d') :
    (decode t d).EndsLike (decode t d') := by
  have ht : t.kind ∈ [.struct, .variant] := by simp [Ty.kind, hs, Shape.kind]
  by_cases hd : d.kind = .object
  case neg =>
    rw [decode_of_not_object ht hd, decode_of_not_object ht (h.kind ▸ hd), unexpected_congr _ h.kind]
    exact .refl _
  obtain ⟨fields, rfl⟩ := Document.exists_object hd
  obtain ⟨fields', rfl⟩ := Document.exists_object (h.kind ▸ hd)
  rcases variantFields_sameFor hs h with hsame | ⟨i, d, d', hi, hi', hinner⟩
  · rw [decode_variant hs, decode_variant hs, hsame]
    exact .refl _
  · obtain ⟨u, hu, hread⟩ := decode_named hs hi
    obtain ⟨u', hu', hread'⟩ := decode_named hs hi'
    cases hu.symm.trans hu'
    rw [hread, hread']
    have hmem := Ty.component_variant hs (List.mem_of_getElem? hu)
    exact (ih u hmem (hinner u hu)).bind fun c => .refl _

end

/-- Documents that are the same for a type are read with the same result. -/
theorem decode_sameFor (t : Ty) {d d' : Document} (h : Document.SameFor t d d') :
    (decode t d).EndsLike (decode t d') := by
  -- on the type and not on `h`, since documents in another order are read through any type
  induction t using Ty.inductOn generalizing d d' with
  | step t ih =>
    cases hs : t.shape with
    | bool | integral | real | string =>
      have hscalar : t.kind ∈ [.bool, .integral, .real, .string] := by simp [Ty.kind, hs, Shape.kind]
      have hleaf := h.leaf (by simp [Ty.kind, hs, Shape.kind]) (by simp [hs, Shape.arguments])
      rw [decode_scalar hscalar, decode_scalar hscalar, decodeScalar_reordered t hleaf]
      exact .refl _
    | enum e =>
      have hleaf := h.leaf (by simp [Ty.kind, hs, Shape.kind]) (by simp [hs, Shape.arguments])
      rw [decode_item hs, decode_item hs, decodeItem_reordered t e hleaf]
      exact .refl _
    | optional argument => exact decode_sameFor_optional ih hs h
    | array argument => exact decode_sameFor_array ih hs h
    | struct base members => exact decode_sameFor_struct ih hs h
    | variant us => exact decode_sameFor_variant ih hs h

end TypedValues
