import TypedValues.Proofs.Notification
import TypedValues.Proofs.Paths

/-! Values survive the way into a document and back. The document of a value is read again by the type
the value is declared with, as content that is equal, if no optional inside that type holds an
optional, variants tell their alternatives apart, and numbers are in the ranges they are declared
with. -/

namespace TypedValues

/-- Absence is written in one way only, and alternatives are told apart by their paths. -/
inductive Ty.Plain : Ty → Prop where
  | intro {t : Ty} (optional : ∀ u, t.shape = .optional (some u) → u.resolved.kind ≠ .optional)
      (variant : ∀ alternatives, t.shape = .variant alternatives → (alternatives.map Ty.path).Nodup)
      (below : ∀ u ∈ t.shape.components, Plain u) : Plain t

/-- The numbers in the content pass the checks of the types they are declared with as they are. -/
inductive Content.Accepted {α : Type} : Ty → Content α → Prop where
  | bool {t : Ty} (b : Bool) : Accepted t (.bool b)
  | ints {t : Ty} {zs : List Int} (check : ∀ z ∈ zs, intComponent t (.int z) = .ok z) :
      Accepted t (.ints zs)
  | reals {t : Ty} {kind : RealKind} {n : Nat} {vs : List Real64} (shape : t.shape = .real kind n)
      (check : ∀ v ∈ vs, realComponent t kind (.real v) = .ok v) : Accepted t (.reals vs)
  | text {t : Ty} (s : String) : Accepted t (.text s)
  | item {t : Ty} (i : Nat) : Accepted t (.item i)
  | empty {t : Ty} : Accepted t (.optional none)
  | some {t argument : Ty} {inner : Node α} (shape : t.shape = .optional (some argument))
      (below : Accepted argument inner.content) : Accepted t (.optional (some inner))
  | variant {t alternative : Ty} {alternatives : List Ty} {i : Nat} {inner : Node α}
      (shape : t.shape = .variant alternatives) (index : alternatives[i]? = .some alternative)
      (below : Accepted alternative inner.content) : Accepted t (.variant i inner)
  | struct {t : Ty} {base : Option Ty} {members : List Member} {ns : List (Node α)}
      (shape : t.shape = .struct base members)
      (below : ∀ p ∈ ns.zip members, Accepted p.2.type p.1.content) : Accepted t (.struct ns)
  | array {t element : Ty} {ns : List (Node α)} (shape : t.shape = .array (.some element))
      (below : ∀ n ∈ ns, Accepted element n.content) : Accepted t (.array ns)

/-- The content of a value of type `t` is written as a document that `declared` reads as equal
content. Only optionals may be written as null. -/
def Content.Restored (t declared : Ty) (c : Content Ty) : Prop :=
  ∃ d c', encode t c = .ok d ∧ (d = .null → c.kind = .optional) ∧
    (decode declared d).Gives c' ∧ c'.equals c = true

theorem mapM_of_forall_eq_ok {ε α β : Type} {f : α → Except ε β} {g : α → β} {as : List α}
    (h : ∀ a ∈ as, f a = .ok (g a)) : as.mapM f = .ok (as.map g) := by
  induction as with
  | nil => rfl
  | cons a as ih =>
    rw [List.forall_mem_cons] at h
    rw [List.mapM_cons, h.1, ih h.2]
    rfl

theorem Document.literals?_map {α : Type} {doc : α → Document} {lit : α → Literal} {as : List α}
    (h : ∀ a ∈ as, (doc a).literal? = some (lit a)) :
    Document.literals? (as.map doc) = some (as.map lit) := by
  induction as with
  | nil => rfl
  | cons a as ih =>
    rw [List.forall_mem_cons] at h
    rw [List.map_cons, literals?, h.1, ih h.2]
    rfl

theorem literal?_of_scalarLiteral? {d : Document} {l : Literal} (h : scalarLiteral? d = some l) :
    d.literal? = some l := by
  cases d with
  | null => cases h
  | _ => exact h

theorem componentsOf_one {α : Type} {t : Ty} {component : Literal → Except Error α} {l : Literal} {a : α}
    (h : component l = .ok a) : componentsOf t 1 component l = .ok [a] := by
  unfold componentsOf
  rw [if_pos rfl, h]
  rfl

theorem componentsOf_many {α β : Type} {t : Ty} {n : Nat} {component : Literal → Except Error β} {as : List α}
    {lit : α → Literal} {g : α → β} (hmany : n ≠ 1) (hlength : as.length = n)
    (h : ∀ a ∈ as, component (lit a) = .ok (g a)) :
    componentsOf t n component (.list (as.map lit)) = .ok (as.map g) := by
  have hall : ∀ a ∈ as, (component ∘ lit) a = .ok (g a) := h
  rw [componentsOf, if_neg hmany, List.length_map, if_pos hlength, List.mapM_map, mapM_of_forall_eq_ok hall]

theorem componentsOf_components {α β : Type} {t : Ty} {n : Nat} {component : Literal → Except Error β}
    {as : List α} {lit : α → Literal} {g : α → β} (hlength : as.length = n) (hn : 1 ≤ n)
    (h : ∀ a ∈ as, component (lit a) = .ok (g a)) :
    componentsOf t n component (UiText.components n (as.map lit)) = .ok (as.map g) := by
  rcases as with _ | ⟨a, _ | ⟨b, as⟩⟩
  · simp at hlength; omega
  · rw [List.forall_mem_singleton] at h
    obtain rfl : 1 = n := hlength
    exact componentsOf_one h
  · have hmany : n ≠ 1 := by simp at hlength; omega
    exact componentsOf_many hmany hlength h

theorem forall₂_of_componentsOf {α : Type} {t : Ty} {n : Nat} {component : Literal → Except Error α}
    {ls : List Literal} {as : List α} (hlength : ls.length = n)
    (h : componentsOf t n component (UiText.components n ls) = .ok as) :
    List.Forall₂ (fun l a => component l = .ok a) ls as := by
  unfold componentsOf at h
  split at h
  next hn =>
    obtain ⟨l, rfl⟩ := List.length_eq_one_iff.1 (hlength.trans hn)
    rw [UiText.components, if_pos hn] at h
    obtain ⟨a, ha, rfl⟩ := Except.bind_pure_eq_ok.1 h
    exact .cons ha .nil
  next hn =>
    have hlist : UiText.components n ls = .list ls := by
      rcases ls with _ | ⟨l, _ | ⟨m, ls⟩⟩
      · rfl
      · exact if_neg hn
      · rfl
    rw [hlist] at h
    simp only [if_pos hlength] at h
    exact mapM_eq_ok h

/-- One component is written and read alone, several as a list. -/
theorem encodeComponents_restored {α : Type} {t : Ty} {n : Nat} {as : List α}
    {encode : α → Except Error Document} {doc : α → Document} {lit : α → Literal}
    {component : Literal → Except Error α} (hlength : as.length = n) (hn : 1 ≤ n)
    (hencode : ∀ a ∈ as, encode a = .ok (doc a))
    (hlit : ∀ a ∈ as, scalarLiteral? (doc a) = some (lit a))
    (hcomponent : ∀ a ∈ as, component (lit a) = .ok a) :
    ∃ d l, encodeComponents encode as = .ok d ∧ scalarLiteral? d = some l ∧
      componentsOf t n component l = .ok as := by
  rcases as with _ | ⟨a, _ | ⟨b, as⟩⟩
  · simp at hlength; omega
  · rw [List.forall_mem_singleton] at hencode hlit hcomponent
    obtain rfl : 1 = n := hlength
    exact ⟨doc a, lit a, hencode, hlit, componentsOf_one hcomponent⟩
  · have hmany : n ≠ 1 := by simp at hlength; omega
    have hdocs := mapM_of_forall_eq_ok hencode
    refine ⟨.array ((a :: b :: as).map doc), .list ((a :: b :: as).map lit), ?_, ?_, ?_⟩
    · rw [encodeComponents, hdocs]
      · rfl
      · simp
    · have hlist := Document.literals?_map fun a ha => literal?_of_scalarLiteral? (hlit a ha)
      rw [scalarLiteral?, Document.literal?, hlist]
      · rfl
      · simp
    · have hback := componentsOf_many (t := t) (g := id) hmany hlength hcomponent
      rwa [List.map_id] at hback

theorem holdsInt_of_contains {kind : IntKind} {z : Int} (h : kind.contains z = true) :
    Document.holdsInt z = true := by
  simp only [Document.holdsInt, IntKind.contains, Bool.or_eq_true, Bool.and_eq_true,
    decide_eq_true_eq] at h ⊢
  cases kind <;> simp only [IntKind.bounds] at h ⊢ <;> omega

theorem isFinite_of_realComponent {t : Ty} {kind : RealKind} {v w : Real64}
    (h : realComponent t kind (.real v) = .ok w) : v.isFinite = true := by
  unfold realComponent at h
  simp only [Literal.asReal?] at h
  split at h
  next => cases h
  next hfinite => simpa using hfinite

namespace Content

variable {t u : Ty}

/-- What is written as a scalar document is read by way of its literal. -/
theorem restored_scalar {c : Content Ty} {d : Document} {l : Literal}
    (hu : u.kind = .bool ∨ u.kind = .integral ∨ u.kind = .real ∨ u.kind = .string)
    (hencode : encode t c = .ok d) (hl : scalarLiteral? d = some l)
    (hstage : stageLiteral u l = .ok c) (hself : c.equals c = true) : c.Restored t u := by
  have hdecode : decode u d = liftM (decodeScalar u d) := by
    rcases u with ⟨_, _, _, shape, _, _⟩
    cases shape <;> simp [Ty.kind, Shape.kind] at hu <;> rw [decode]
  have hscalar : decodeScalar u d = .ok c := by rw [decodeScalar, hl]; exact hstage
  refine ⟨d, c, hencode, ?_, ?_, hself⟩
  · intro hnull
    subst hnull
    cases hl
  · rw [hdecode]
    exact Attempt.gives_ofExcept hscalar

theorem restored_bool (hu : u.shape = .bool) (b : Bool) : (Content.bool b).Restored t u := by
  have hstage : stageLiteral u (.bool b) = .ok (.bool b) := by
    rcases u with ⟨_, _, _, _, _, _⟩; cases hu; rw [stageLiteral]
  exact restored_scalar (.inl (by rw [Ty.kind, hu]; rfl)) (by rw [encode]) rfl hstage
    (by simp [equals])

theorem restored_text (hu : u.shape = .string) (s : String) : (Content.text s).Restored t u := by
  have hstage : stageLiteral u (.text s) = .ok (.text s) := by
    rcases u with ⟨_, _, _, _, _, _⟩; cases hu; rw [stageLiteral]
  exact restored_scalar (.inr (.inr (.inr (by rw [Ty.kind, hu]; rfl)))) (by rw [encode]) rfl hstage
    (by simp [equals])

theorem restored_ints {kind : IntKind} {n : Nat} (hu : u.shape = .integral kind n) {zs : List Int}
    (hc : (Content.ints zs : Content Ty).Fits u)
    (hcheck : ∀ z ∈ zs, intComponent u (.int z) = .ok z) : (Content.ints zs).Restored t u := by
  cases hc with
  | ints shape length count bounds =>
    obtain ⟨rfl, rfl⟩ := Shape.integral.inj (shape.symm.trans hu)
    have hencode : ∀ z ∈ zs, encodeInt t z = .ok (.int z) := fun z hz =>
      if_pos (holdsInt_of_contains (bounds z hz))
    obtain ⟨d, l, hd, hl, hback⟩ := encodeComponents_restored (t := u) length count.1 hencode
      (fun _ _ => rfl) hcheck
    have hstage : stageLiteral u l = .ok (.ints zs) := by
      rcases u with ⟨_, _, _, _, _, _⟩; cases hu; rw [stageLiteral, hback]; rfl
    exact restored_scalar (.inr (.inl (by rw [Ty.kind, hu]; rfl))) (by rw [encode, hd]) hl hstage
      (by simp [equals])

theorem restored_reals {kind : RealKind} {n : Nat} (hu : u.shape = .real kind n)
    {vs : List Real64} (hc : (Content.reals vs : Content Ty).Fits u)
    (hcheck : ∀ v ∈ vs, realComponent u kind (.real v) = .ok v) : (Content.reals vs).Restored t u := by
  have hself := hc.equals_self
  cases hc with
  | reals shape length count fixed =>
    obtain ⟨rfl, rfl⟩ := Shape.real.inj (shape.symm.trans hu)
    have hencode : ∀ v ∈ vs, encodeReal t v = .ok (.real v) := fun v hv =>
      if_pos (isFinite_of_realComponent (hcheck v hv))
    obtain ⟨d, l, hd, hl, hback⟩ := encodeComponents_restored (t := u) length count.1 hencode
      (fun _ _ => rfl) hcheck
    have hstage : stageLiteral u l = .ok (.reals vs) := by
      rcases u with ⟨_, _, _, _, _, _⟩; cases hu; rw [stageLiteral, hback]; rfl
    exact restored_scalar (.inr (.inr (.inl (by rw [Ty.kind, hu]; rfl)))) (by rw [encode, hd]) hl hstage
      hself

theorem restored_item {d : EnumDef} (ht : t.shape = .enum d) (hu : u.shape = .enum d)
    (hd : d.Valid) {i : Nat} (hi : i < d.items.length) : (Content.item i).Restored t u := by
  have hitem : ItemRef.item? ⟨t, i⟩ = some d.items[i] := by
    rw [ItemRef.item?, ht]
    exact List.getElem?_eq_getElem hi
  have hfind : d.find? d.items[i].name = some i :=
    findIdx?_of_nodup hd.names (List.getElem?_eq_getElem hi)
  have hdecode : decode u (.text d.items[i].name) = liftM (decodeItem u d (.text d.items[i].name)) := by
    rcases u with ⟨_, _, _, _, _, _⟩; cases hu; rw [decode]
  refine ⟨.text d.items[i].name, .item i, by rw [encode, hitem], by simp, ?_, by simp [equals]⟩
  rw [hdecode]
  exact Attempt.gives_ofExcept (by rw [decodeItem, hfind])

theorem restored_empty {argument : Ty} (hu : u.shape = .optional (some argument)) :
    (Content.optional none).Restored t u := by
  refine ⟨.null, .optional none, by rw [encode], fun _ => rfl, ?_, rfl⟩
  rcases u with ⟨_, _, _, _, _, _⟩
  cases hu
  rw [decode]
  exact Attempt.gives_pure _

theorem restored_some {argument : Ty} (hu : u.shape = .optional (some argument)) {n : Node Ty}
    (hkind : n.content.kind ≠ .optional) (h : n.content.Restored n.type argument) :
    (Content.optional (some n)).Restored t u := by
  obtain ⟨d, c, hencode, hnull, hdecode, hequal⟩ := h
  rcases n with ⟨type, content⟩
  have hsome : d ≠ .null := fun hd => hkind (hnull hd)
  refine ⟨d, .optional (some ⟨argument, c⟩), ?_, fun _ => rfl, ?_, hequal⟩
  · rw [encode_some]
    exact hencode
  · have hgives : (do return .optional (some ⟨argument, ← decode argument d⟩) :
        Attempt Error (Content Ty)).Gives (.optional (some ⟨argument, c⟩)) :=
      hdecode.bind (Attempt.gives_pure _)
    rcases u with ⟨_, _, _, _, _, _⟩
    cases hu
    cases d with
    | null => exact absurd rfl hsome
    | _ => exact hgives

theorem findAlternative?_path {alternatives : List Ty} (hpaths : (alternatives.map Ty.path).Nodup)
    (hvalid : ∀ a ∈ alternatives, a.path.Valid) {i : Nat} {a : Ty} (hi : alternatives[i]? = some a) :
    findAlternative? alternatives a.path.text = some i := by
  have htexts : (alternatives.map (·.path.text)).Nodup := by
    have hmap : (alternatives.map Ty.path).map Path.text = alternatives.map (·.path.text) :=
      List.map_map
    refine hmap ▸ List.Nodup.map_on (fun p hp q hq h => ?_) hpaths
    obtain ⟨a, ha, rfl⟩ := List.mem_map.1 hp
    obtain ⟨b, hb, rfl⟩ := List.mem_map.1 hq
    exact Path.text_injective (hvalid a ha) (hvalid b hb) h
  have hfind : alternatives.findIdx? (·.path.text == a.path.text) = some i :=
    findIdx?_of_nodup htexts hi
  rw [findAlternative?, hfind]
  rfl

theorem decodeAlternative_gives {alternatives : List Ty} {i : Nat} {a : Ty}
    (hi : alternatives[i]? = some a) {d : Document} {c : Content Ty} (h : (decode a d).Gives c) :
    (decodeAlternative u alternatives i d).Gives ⟨a, c⟩ := by
  induction alternatives generalizing i with
  | nil => cases hi
  | cons b rest ih =>
    cases i with
    | zero =>
      cases hi
      rw [decodeAlternative]
      exact h.bind (Attempt.gives_pure _)
    | succ i =>
      rw [decodeAlternative]
      exact ih hi

/-- The path of an alternative leads back to it, before any name is looked at. -/
theorem restored_variant {alternatives : List Ty} (ht : t.shape = .variant alternatives)
    (hu : u.shape = .variant alternatives) (hpaths : (alternatives.map Ty.path).Nodup)
    (hvalid : ∀ a ∈ alternatives, a.path.Valid) {i : Nat} {a : Ty} (hi : alternatives[i]? = some a)
    {n : Node Ty} (h : n.content.Restored n.type a) : (Content.variant i n).Restored t u := by
  obtain ⟨d, c, hencode, -, hdecode, hequal⟩ := h
  rcases n with ⟨type, content⟩
  refine ⟨.object [⟨variantTypeKey, .text a.path.text⟩, ⟨variantValueKey, d⟩], .variant i ⟨a, c⟩,
    ?_, by simp, ?_, by rw [equals, beq_self_eq_true]; exact hequal⟩
  · have hencode : encodeNode ⟨type, content⟩ = .ok d := by rw [encodeNode]; exact hencode
    rw [encode, ht, Shape.arguments, hi]
    simp only [hencode]
    rfl
  · have hfields : variantFields u alternatives
        [⟨variantTypeKey, .text a.path.text⟩, ⟨variantValueKey, d⟩] = .ok (i, d) := by
      have htype : Field.get? variantTypeKey [⟨variantTypeKey, .text a.path.text⟩,
        ⟨variantValueKey, d⟩] = some (.text a.path.text) := rfl
      have hvalue : Field.get? variantValueKey [⟨variantTypeKey, .text a.path.text⟩,
        ⟨variantValueKey, d⟩] = some d := rfl
      rw [variantFields, htype]
      simp only [hvalue, findAlternative?_path hpaths hvalid hi]
    have hgives : (do
        let p ← variantFields u alternatives
          [⟨variantTypeKey, .text a.path.text⟩, ⟨variantValueKey, d⟩]
        return .variant p.1 (← decodeAlternative u alternatives p.1 p.2) :
          Attempt Error (Content Ty)).Gives (.variant i ⟨a, c⟩) :=
      (Attempt.gives_ofExcept hfields).bind
        ((decodeAlternative_gives hi hdecode).bind (Attempt.gives_pure _))
    rcases u with ⟨_, _, _, _, _, _⟩
    cases hu
    rw [decode]
    exact hgives

theorem Field.get?_of_nodup {fields : List Field} (h : (fields.map (·.key)).Nodup) :
    ∀ f ∈ fields, Field.get? f.key fields = some f.value := by
  induction fields with
  | nil => simp
  | cons g rest ih =>
    rw [List.map_cons, List.nodup_cons] at h
    refine List.forall_mem_cons.2 ⟨if_pos rfl, fun f hf => ?_⟩
    have hne : g.key ≠ f.key := fun heq => h.1 (heq ▸ List.mem_map_of_mem hf)
    rw [Field.get?, if_neg hne, ih h.2 f hf]

/-- The members are written under their names, and read wherever these names are found. -/
theorem encodeMembers_restored {ms ms' : List Member} {ns : List (Node Ty)}
    (hnames : ms'.map (·.name) = ms.map (·.name))
    (h : List.Forall₂ (fun n m => n.content.Restored n.type m.type) ns ms') :
    ∃ fields, encodeMembers ms ns = .ok fields ∧ fields.map (·.key) = ms.map (·.name) ∧
      ∀ all, (∀ f ∈ fields, Field.get? f.key all = some f.value) →
        ∃ ns', (decodeMembers ms' all).Gives ns' ∧ Node.equalsAll ns' ns = true := by
  induction h generalizing ms with
  | nil =>
    obtain rfl : ms = [] := by simpa using hnames.symm
    exact ⟨[], by rw [encodeMembers], rfl, fun all _ => ⟨[], Attempt.gives_pure _, rfl⟩⟩
  | @cons n m' ns ms' hn _ ih =>
    rcases ms with _ | ⟨m, ms⟩
    · cases hnames
    obtain ⟨hname, hnames⟩ := List.cons.inj hnames
    obtain ⟨fields, hencode, hkeys, hdecode⟩ := ih hnames
    obtain ⟨d, c, hd, -, hc, hequal⟩ := hn
    refine ⟨⟨m.name, d⟩ :: fields, ?_, by rw [List.map_cons, hkeys, List.map_cons], ?_⟩
    · rcases n with ⟨type, content⟩
      have hnode : underSite (.member m.path) (encodeNode ⟨type, content⟩) = .ok d := by
        rw [encodeNode]; exact underSite_eq_ok.2 hd
      rw [encodeMembers]
      simp only [hnode, hencode]
      rfl
    · intro all hall
      rw [List.forall_mem_cons] at hall
      obtain ⟨ns', hrest, hequals⟩ := hdecode all hall.2
      rcases m' with ⟨symbol, type, default⟩
      have hget : Field.get? symbol.name all = some d := by
        rw [show symbol.name = m.name from hname]; exact hall.1
      refine ⟨⟨type, c⟩ :: ns', ?_, ?_⟩
      · have hnode : (do return ⟨type, ← decode type d⟩ : Attempt Error (Node Ty)).Gives ⟨type, c⟩ :=
          hc.bind (Attempt.gives_pure _)
        rw [decodeMembers, hget]
        refine (hnode.under _).bind (b := ⟨type, c⟩ :: ns') ?_
        exact hrest.bind (Attempt.gives_pure _)
      · rw [Node.equalsAll, Node.equals_eq, hequal, hequals]; rfl

theorem restored_struct {base : Option Ty} {ms ms' : List Member} (ht : t.shape = .struct base ms)
    (hu : u.shape = .struct base ms') (hnames : ms'.map (·.name) = ms.map (·.name))
    (hnodup : (ms'.map (·.name)).Nodup) {ns : List (Node Ty)}
    (h : List.Forall₂ (fun n m => n.content.Restored n.type m.type) ns ms') :
    (Content.struct ns).Restored t u := by
  obtain ⟨fields, hencode, hkeys, hdecode⟩ := encodeMembers_restored hnames h
  have hdistinct : (fields.map (·.key)).Nodup := by rw [hkeys, ← hnames]; exact hnodup
  obtain ⟨ns', hgives, hequal⟩ := hdecode fields (Field.get?_of_nodup hdistinct)
  refine ⟨.object fields, .struct ns', ?_, by simp, ?_, hequal⟩
  · rw [encode, ht, Shape.members, hencode]
    rfl
  · rcases u with ⟨_, _, _, _, _, _⟩
    cases hu
    rw [decode]
    exact (Attempt.gives_record _).bind (hgives.bind (Attempt.gives_pure _))

theorem encodeElements_restored {ns : List (Node Ty)} (h : ∀ n ∈ ns, n.content.Restored n.type u)
    (i : Nat) : ∃ ds, encodeElements i ns = .ok ds ∧ ∃ ns',
      (attemptElements (fun d => return ⟨u, ← decode u d⟩) i ds).Gives ns' ∧
        Node.equalsAll ns' ns = true := by
  induction ns generalizing i with
  | nil => exact ⟨[], by rw [encodeElements], [], Attempt.gives_pure _, rfl⟩
  | cons n ns ih =>
    rw [List.forall_mem_cons] at h
    obtain ⟨ds, hencode, ns', hrest, hequals⟩ := ih h.2 (i + 1)
    obtain ⟨d, c, hd, -, hc, hequal⟩ := h.1
    refine ⟨d :: ds, ?_, ⟨u, c⟩ :: ns', ?_, ?_⟩
    · rcases n with ⟨type, content⟩
      have hnode : underSite (.element i) (encodeNode ⟨type, content⟩) = .ok d := by
        rw [encodeNode]; exact underSite_eq_ok.2 hd
      rw [encodeElements]
      simp only [hnode, hencode]
      rfl
    · have hnode : (do return ⟨u, ← decode u d⟩ : Attempt Error (Node Ty)).Gives ⟨u, c⟩ :=
        hc.bind (Attempt.gives_pure _)
      refine (hnode.under _).bind (b := ⟨u, c⟩ :: ns') ?_
      exact hrest.bind (Attempt.gives_pure _)
    · rw [Node.equalsAll, Node.equals_eq, hequal, hequals]; rfl

theorem restored_array {element : Ty} (hu : u.shape = .array (some element)) {ns : List (Node Ty)}
    (h : ∀ n ∈ ns, n.content.Restored n.type element) : (Content.array ns).Restored t u := by
  obtain ⟨ds, hencode, ns', hgives, hequal⟩ := encodeElements_restored h 0
  refine ⟨.array ds, .array ns', by rw [encode, hencode]; rfl, by simp, ?_, hequal⟩
  rcases u with ⟨_, _, _, _, _, _⟩
  cases hu
  rw [decode]
  exact hgives.bind (Attempt.gives_pure _)

end Content

namespace Ty.Plain

variable {t u : Ty}

theorem argument (h : t.Plain) (hs : t.shape = .optional (some u)) : u.resolved.kind ≠ .optional := by
  cases h with
  | intro optional _ _ => exact optional u hs

theorem paths (h : t.Plain) {alternatives : List Ty} (hs : t.shape = .variant alternatives) :
    (alternatives.map Ty.path).Nodup := by
  cases h with
  | intro _ variant _ => exact variant alternatives hs

theorem component (h : t.Plain) (hu : u ∈ t.shape.components) : u.Plain := by
  cases h with
  | intro _ _ below => exact below u hu

end Ty.Plain

theorem Catalog.kind_resolved {K : Set Ty} {next : Nat} (hK : Catalog K next) {t : Ty} (ht : t ∈ K) :
    t.resolved.kind = t.kind := by
  rw [Ty.kind, Ty.kind, ← Shape.kind_core t.shape, (hK.resolved ht).2, Shape.kind_core]

/-- Content is restored by every type that it may be declared with. -/
theorem Content.restored {K : Set Ty} {next : Nat} (hK : Catalog K next) {t u : Ty}
    (hcore : t.shape.core = u.shape.core) (hu : u ∈ K) {c : Content Ty} (hc : c.Typed K u)
    (hplain : u.Plain) (haccepted : c.Accepted u) : c.Restored t u := by
  induction c using Content.inductOn generalizing t u with
  | step c ih =>
    -- a child is written with its own type and read with the one it is declared with
    have child {n : Node Ty} (hn : n ∈ c.children) {declared : Ty}
        (hd : declared ∈ u.shape.components) (hsuits : n.Suits K declared)
        (hn' : n.content.Accepted declared) : n.content.Restored n.type declared := by
      have hmem := hK.component_mem hu hd
      have hcore' := hK.core_eq hsuits.type_mem hmem hsuits.type
      have hcontent := hsuits.content.of_compatible hK hsuits.type_mem hmem hsuits.type
      exact ih n hn hcore' hmem hcontent (hplain.component hd) hn'
    cases haccepted with
    | bool b => cases hc.fits with | bool shape => exact restored_bool shape b
    | text s => cases hc.fits with | text shape => exact restored_text shape s
    | ints check => cases hc.fits with | ints shape => exact restored_ints shape hc.fits check
    | reals shape check => exact restored_reals shape hc.fits check
    | item i =>
      cases hc.fits with
      | item shape index =>
        exact restored_item (Shape.eq_of_core_eq hcore.symm shape) shape
          ((hK.valid u hu).shape.items _ shape) index
    | empty => cases hc.fits with | empty shape => exact restored_empty shape
    | @some _ argument n shape below =>
      have hd := Ty.component_optional shape
      have hsuits := hc.suits_of_some shape
      have hmem := hK.component_mem hu hd
      have hcontent := hsuits.content.of_compatible hK hsuits.type_mem hmem hsuits.type
      have hkind : n.content.kind ≠ .optional := by
        rw [hcontent.fits.kind, ← hK.kind_resolved hmem]
        exact hplain.argument shape
      exact restored_some shape hkind (child List.mem_cons_self hd hsuits below)
    | @variant _ alternative alternatives i n shape index below =>
      have halternative := Ty.component_variant shape (List.mem_of_getElem? index)
      exact restored_variant (Shape.eq_of_core_eq hcore.symm shape) shape (hplain.paths shape)
        (fun a ha => (hK.valid a (hK.component_mem hu (Ty.component_variant shape ha))).path) index
        (child List.mem_cons_self halternative (hc.suits_of_variant shape index) below)
    | @struct _ base members ns shape below =>
      obtain ⟨members', hs, -, hnames⟩ := Shape.exists_struct_of_core_eq hcore.symm shape
      have hnodup : (members.map (·.name)).Nodup := by
        have hnodup : (u.shape.members.map (·.name)).Nodup := (hK.valid u hu).shape.names
        rwa [shape] at hnodup
      obtain ⟨hlength, hsuits⟩ := List.forall₂_iff_zip.1 (hc.suits_of_struct shape)
      refine restored_struct hs shape hnames.symm hnodup (List.forall₂_iff_zip.2 ⟨hlength, ?_⟩)
      intro n m hp
      obtain ⟨hn, hm⟩ := List.of_mem_zip hp
      exact child hn (Ty.component_struct shape hm) (hsuits hp) (below _ hp)
    | @array _ element ns shape below =>
      exact restored_array shape fun n hn =>
        child hn (Ty.component_array shape) (hc.suits_of_array shape n hn) (below n hn)

theorem Holder.isEqual_gives {α β : Type} [HasType α] [HasType β] {h : Holder α} {other : Holder β}
    {c : Content α} {d : Content β} (hc : h.content = some c) (hd : other.content = some d)
    (hcompat : h.type.compatible other.type = true) : (h.isEqual other).Gives (c.equals d) := by
  have hconstructed : h.constructed.Gives c := by
    rw [constructed, hc]; exact Attempt.gives_pure c
  refine hconstructed.bind ?_
  rw [hd]
  simp only [hcompat, if_pos]
  exact Attempt.gives_pure _

theorem Holder.stageChange_deserialize {α : Type} [HasType α] {h : Holder α} {c : Content α}
    (hc : h.content = some c) {d : Document} {staged : Content Ty} (hd : (decode h.type d).Gives staged) :
    (h.stageChange (.deserialize d)).Gives (.replace staged, none) := by
  have hconstructed : h.constructed.Gives c := by
    rw [constructed, hc]; exact Attempt.gives_pure c
  exact hconstructed.bind (hd.bind (Attempt.gives_pure (Edit.replace staged, none)))

namespace Session

variable {s : Session}

/-- A value that can be written is written as a document which every constructed value of its type, now
or later, takes over: it is equal afterwards, and calls nobody if it was that value itself. -/
theorem deserialize_serialize (hs : s.Reachable) {v : Snapshot} (hv : s.Has v) {c : Content Ty}
    (hc : v.content = some c) (hplain : v.type.Plain) (haccepted : c.Accepted v.type) :
    ∃ d, encode v.type c = .ok d ∧ ∀ t, Run s t → ∀ label walk root location w,
      t.values.get? label = some root →
      ((root.reachAll walk).run t.policy).outcome = .ok (location, w) →
      w.isConstructed → w.type = v.type →
      ((change label walk (.deserialize d)).run t).2.outcome = .ok none ∧
      (∃ root' w', ((change label walk (.deserialize d)).run t).1.values.get? label = some root' ∧
        root'.part? location = some w' ∧ w'.label = w.label ∧ (w'.isEqual v).Gives true) ∧
      (w.snapshot = v → called ((change label walk (.deserialize d)).run t).2.trace = []) := by
  obtain ⟨K, hK⟩ := hs.invariant
  have htyped := hK.sound.has hv
  obtain ⟨d, staged, hencode, -, hdecode, hequal⟩ :=
    Content.restored hK.sound.catalog rfl htyped.type (htyped.content c hc) hplain haccepted
  refine ⟨d, hencode, fun t ht label walk root location w hroot hreach hw htype => ?_⟩
  obtain ⟨L, hL⟩ := run_advances hK ht
  obtain ⟨before, hbefore⟩ := Option.isSome_iff_exists.1 hw
  have hgives : (w.stageChange (.deserialize d)).Gives (.replace staged, none) :=
    Holder.stageChange_deserialize hbefore (htype ▸ hdecode)
  rcases change_cases t label walk (.deserialize d) with ⟨-, -, -, hrefused⟩ |
    ⟨root', location', w', edit, position, hroot', hreach', hstage, hafter, hcalled, hok⟩
  · exact absurd (hgives t.policy) (hrefused root location w hroot hreach _)
  obtain rfl : root' = root := Option.some.inj (hroot'.symm.trans hroot)
  cases hreach'.symm.trans hreach
  cases hstage.symm.trans (hgives t.policy)
  have hnone : ∀ o ∈ (Change.deserialize d).operands, t.Offers o := fun o ho => by cases ho
  obtain ⟨hcarried, -⟩ := change_carried hL.invariant hnone hroot' hreach' hstage
  obtain ⟨after, hpart, hedit⟩ := hcarried.target before hbefore
  have hrestored : after.equals c = true := Content.equals_trans (hedit.replaced staged rfl) hequal
  refine ⟨hok, ⟨_, ⟨w.label, some after⟩, by rw [hafter, Table.get?_put, if_pos rfl], hpart, rfl, ?_⟩,
    fun hsame => ?_⟩
  · have hcompat : Ty.compatible w.type v.type = true := htype ▸ Ty.compatible_refl _
    have hisEqual := Holder.isEqual_gives (h := ⟨w.label, some after⟩) rfl hc hcompat
    rwa [hrestored] at hisEqual
  · have hcontent : before.relabel HasType.type = c := by
      rw [← hsame, Holder.snapshot, hbefore] at hc
      exact Option.some.inj hc
    have hbefore' : before.equals after = true := by
      rw [← Content.equals_relabel_left HasType.type, hcontent]
      exact Content.equals_symm hrestored
    rw [hcalled, hedit.called, if_pos hbefore']

/-- The lamp is written as an object, and takes it over without calling anybody. -/
theorem deserialize_serialize_lit : lit.Reachable ∧ lampType.Plain ∧
    encode lampType (.struct [⟨boolType, .bool false⟩]) = .ok (.object [⟨"on", .bool false⟩]) ∧
    called ((change "desk" [] (.deserialize (.object [⟨"on", .bool false⟩]))).run lit).2.trace = [] := by
  have hbool : boolType.Plain :=
    .intro (fun u h => by cases h) (fun us h => by cases h) fun u hu => by cases hu
  have hlamp : lampType.Plain := by
    refine .intro (fun u h => by cases h) (fun us h => by cases h) fun u hu => ?_
    obtain rfl := List.mem_singleton.1 hu
    exact hbool
  have haccepted : Content.Accepted lampType (.struct [(⟨boolType, .bool false⟩ : Node Ty)]) := by
    refine .struct rfl fun p hp => ?_
    obtain rfl := List.mem_singleton.1 hp
    exact .bool false
  have hdesk : lit.values.get? "desk" = some deskLamp.holder := by rfl
  have hhas : lit.Has deskLamp.holder.snapshot := .part ⟨"desk", _, [], hdesk, rfl⟩
  obtain ⟨d, hencode, hchange⟩ := deserialize_serialize lit_reachable hhas rfl hlamp haccepted
  have hdocument : encode lampType (.struct [⟨boolType, .bool false⟩]) =
      .ok (.object [⟨"on", .bool false⟩]) := by rfl
  cases hencode.symm.trans hdocument
  obtain ⟨-, -, hquiet⟩ := hchange lit .refl "desk" [] _ _ _ hdesk rfl rfl rfl
  exact ⟨lit_reachable, hlamp, hdocument, hquiet rfl⟩

end Session

end TypedValues
