import TypedValues.Proofs.Alternatives
import TypedValues.Proofs.Contract
import TypedValues.Proofs.RealBounds

/-! Overwriting. What a value holds after it has read a document is told by the document, up to two things
that it keeps: a zero stays when a zero of the other sign is read, and a node stays under the type that it
had, which may be an alias with texts of its own. -/

namespace TypedValues

/-- The components with every negative zero made positive. -/
def Content.unsigned : Content Ty → Content Ty
  | .reals vs => .reals (vs.map Real64.unsigned)
  | c => c

/-- Equal contents have one text, up to signs of zero, if reals are shown with one number of decimals. -/
theorem UiText.write_unsigned {t u : Ty} (hcore : t.shape.core = u.shape.core) {c d : Content Ty}
    (h : c.normal = d.normal)
    (hdecimals : t.kind = .real → t.definition.decimals? = u.definition.decimals?) :
    Except.Agrees Eq (write t c.unsigned) (write u d.unsigned) := by
  have hshapes : u.shape = t.shape ∨
      ∃ base ms base' ms', t.shape = .struct base ms ∧ u.shape = .struct base' ms' := by
    cases hs : t.shape with
    | struct base ms =>
      obtain ⟨ms', hu, -⟩ := Shape.exists_struct_of_core_eq hcore hs
      exact .inr ⟨base, ms, base, ms', rfl, hu⟩
    | _ => exact .inl (Shape.eq_of_core_eq hcore hs)
  cases Content.Parallel.of_normal h with
  | bool | ints | text => exact .ok rfl
  | reals =>
    have hreals := Content.reals.inj h
    rw [Content.unsigned, Content.unsigned, hreals, write, write]
    rcases hshapes with hs | ⟨_, _, _, _, ht, hu⟩
    · rw [hs]
      split
      next hreal =>
        rw [hdecimals (by rw [Ty.kind, hreal, Shape.kind])]
        exact .ok rfl
      next => exact .notSupported ..
    · rw [ht, hu]
      exact .notSupported ..
  | item i =>
    simp only [Content.unsigned, write]
    rcases hshapes with hs | ⟨_, _, _, _, ht, hu⟩
    · rw [hs]
      split
      · split
        · exact .ok rfl
        · exact .dataAt ..
      · exact .notSupported ..
    · rw [ht, hu]
      exact .notSupported ..
  | empty | some | variant | struct | array => exact .notSupported ..

variable {K L : Set Ty} {next next' : Nat}

/-- Equal contents under types of one core, which may be aliases of each other. -/
structure Node.Peer (x y : Node Ty) : Prop where
  core : x.type.shape.core = y.type.shape.core
  content : x.content.normal = y.content.normal

theorem Node.get?_peer (hK : Catalog K next) {n m : Node Ty} (hn : n.Typed K) (hm : m.Typed K)
    (hcompat : n.type.compatible m.type = true) (h : n.content.normal = m.content.normal) (below : Location) :
    Option.Rel Peer (n.get? below) (m.get? below) := by
  induction below generalizing n m with
  | nil => exact .some ⟨hK.core_eq hn.type_mem hm.type_mem hcompat, h⟩
  | cons i rest ih =>
    have hcore := hK.core_eq hn.type_mem hm.type_mem hcompat
    have hpeers := hn.content.fits.peers hcore hm.content.fits h
    have hequal := Content.children_of_normal h
    rw [get?_cons, get?_cons]
    cases hx : n.content.children[i]? with
    | none =>
      have hy : m.content.children[i]? = none := by
        rw [List.getElem?_eq_none_iff] at hx ⊢
        rwa [← hpeers.length_eq]
      rw [hy]
      exact .none
    | some x =>
      obtain ⟨hi, rfl⟩ := List.getElem?_eq_some_iff.1 hx
      have hj : i < m.content.children.length := by rwa [← hpeers.length_eq]
      rw [List.getElem?_eq_getElem hj]
      exact ih (hn.content.child (List.getElem_mem hi)) (hm.content.child (List.getElem_mem hj))
        (hpeers.get hi hj) (hequal.get hi hj)

/-- Two values are written alike and have the same places. At each of them they have one text for people,
where reals are shown with one number of decimals. Signs of zero do not count. -/
structure Holder.Resembles (v w : Snapshot) : Prop where
  written {c d : Content Ty} (hc : v.content = some c) (hd : w.content = some d) :
    Except.Agrees Document.Same (encode v.type c) (encode w.type d)
  places (below : Location) : (v.part? below).isSome = (w.part? below).isSome
  shown {below : Location} {x y : Snapshot} (hx : v.part? below = some x) (hy : w.part? below = some y)
    {c d : Content Ty} (hc : x.content = some c) (hd : y.content = some d) :
    x.type.kind = y.type.kind ∧
      ((x.type.kind = .real → x.type.definition.decimals? = y.type.definition.decimals?) →
        Except.Agrees Eq (UiText.write x.type c.unsigned) (UiText.write y.type d.unsigned))

theorem Except.Agrees.joined {α β γ : Type} {R : α → γ → Prop} {S : β → γ → Prop} {T : α → β → Prop}
    {x : Except Error α} {y : Except Error β} {z : Except Error γ} (hx : Agrees R x z) (hy : Agrees S y z)
    (h : ∀ a b c, R a c → S b c → T a b) : Agrees T x y := by
  cases hx with
  | ok hac => cases hy with | ok hbc => exact .ok (h _ _ _ hac hbc)
  | error hcategory hstate =>
    cases hy with | error hcategory' _ => exact .error (hcategory.trans hcategory'.symm) hstate

/-- Values of one type that are equal to the same content resemble each other, wherever they live. -/
theorem Holder.resembles_of_normal (hK : Catalog K next) (hL : Catalog L next') {t : Ty} {a b p : Content Ty}
    (htK : t ∈ K) (htL : t ∈ L) (ha : a.Typed K t) (hb : b.Typed L t) (hpK : p.Typed K t) (hpL : p.Typed L t)
    (hap : a.normal = p.normal) (hbp : b.normal = p.normal) :
    Holder.Resembles ⟨t, some a⟩ ⟨t, some b⟩ := by
  have hnode {M : Set Ty} {c : Content Ty} (ht : t ∈ M) (hc : c.Typed M t) : (⟨t, c⟩ : Node Ty).Typed M :=
    Node.typed_mk ht hc
  have hplace (below : Location) :
      Option.Rel Node.Peer ((⟨t, a⟩ : Node Ty).get? below) ((⟨t, b⟩ : Node Ty).get? below) := by
    have hleft := Node.get?_peer hK (hnode htK ha) (hnode htK hpK) (Ty.compatible_refl t) hap below
    have hright := Node.get?_peer hL (hnode htL hb) (hnode htL hpL) (Ty.compatible_refl t) hbp below
    generalize (⟨t, p⟩ : Node Ty).get? below = found at hleft hright
    generalize (⟨t, a⟩ : Node Ty).get? below = x, (⟨t, b⟩ : Node Ty).get? below = y at hleft hright
    cases hleft with
    | none => cases hright with | none => exact .none
    | some h =>
      cases hright with
      | some h' => exact .some ⟨h.core.trans h'.core.symm, h.content.trans h'.content.symm⟩
  have hpart (c : Content Ty) (below : Location) : (⟨t, some c⟩ : Snapshot).part? below =
      ((⟨t, c⟩ : Node Ty).get? below).map Node.holder := Node.part?_holder ⟨t, c⟩ below
  constructor
  case written =>
    rintro _ _ ⟨⟩ ⟨⟩
    exact (Content.encode_agrees hK htK htK (Ty.compatible_refl t) ha hpK hap).joined
      (Content.encode_agrees hL htL htL (Ty.compatible_refl t) hb hpL hbp) fun _ _ _ h h' => h.trans h'.symm
  case places =>
    intro below
    have hplace := hplace below
    rw [hpart, hpart, Option.isSome_map, Option.isSome_map]
    generalize (⟨t, a⟩ : Node Ty).get? below = x, (⟨t, b⟩ : Node Ty).get? below = y at hplace
    cases hplace <;> rfl
  case shown =>
    intro below x y hx hy c d hc hd
    have hplace := hplace below
    rw [hpart, Option.map_eq_some_iff] at hx hy
    obtain ⟨n, hn, rfl⟩ := hx
    obtain ⟨m, hm, rfl⟩ := hy
    cases hc
    cases hd
    rw [hn, hm] at hplace
    cases hplace with
    | some h =>
      refine ⟨?_, UiText.write_unsigned h.core h.content⟩
      rw [Ty.kind, ← Shape.kind_core]
      exact (congrArg Shape.kind h.core).trans (Shape.kind_core _)

/-- Reading a document breaks no rule, so the policy does not matter. -/
theorem decode_run (t : Ty) (d : Document) (p q : Policy) : (decode t d).run p = (decode t d).run q := by
  have hcandid : (decode t d).Candid (.staging [] False) := decode_candid t d
  have hrun : (decode t d).run .panic = (decode t d).run .report := by
    apply hcandid.agrees
    cases hfault : firstFault ((decode t d).run .report).trace with
    | none => rfl
    | some e =>
      obtain ⟨o, ho, -⟩ := hcandid.blames e hfault
      cases ho
  cases p <;> cases q <;> simp only [hrun]

def Result.value? {ε α : Type} (r : Result ε α) : Option α :=
  match r.outcome with
  | .ok a => some a
  | .error _ | .panic _ => none

theorem Result.outcome_eq_ok {ε α : Type} {r : Result ε α} {a : α} :
    r.outcome = .ok a ↔ r.value? = some a := by
  rcases r with ⟨_, b | e | e⟩ <;> simp [value?]

def Document.real? : Document → Option Real64
  | .real v => some v
  | _ => none

theorem Document.eq_real {d : Option Document} {v : Real64} :
    d = some (.real v) ↔ d.bind Document.real? = some v := by
  rcases d with _ | ⟨_ | _ | _ | _ | _ | _ | _⟩ <;> simp [real?]

namespace Session

variable {s t : Session} {label label' : String} {walk walk' : List Access} {location location' : Location}
  {a b : Value}

theorem stageChange_deserialize {α : Type} [HasType α] {h : Holder α} (hc : h.isConstructed = true)
    {d : Document} {p : Policy} {r : Edit × Option Nat} :
    ((h.stageChange (.deserialize d)).run p).outcome = .ok r ↔
      ∃ c, ((decode h.type d).run p).outcome = .ok c ∧ r = (.replace c, none) := by
  obtain ⟨content, hcontent⟩ := Option.isSome_iff_exists.1 hc
  have hstage : h.stageChange (.deserialize d) = (do return (.replace (← decode h.type d), none)) := by
    rcases h with ⟨l, _⟩
    cases hcontent
    rfl
  rw [hstage, Attempt.bind_eq_ok]
  simp only [Attempt.run_pure, Outcome.ok.injEq, eq_comm]

/-- A document that is read into a constructed value leaves there what it is decoded to. -/
theorem deserialize_result {K : Set Ty} (hK : s.Invariant K) (ha : s.Reaches label walk location a)
    (hc : a.isConstructed = true) {d : Document} {p : Content Ty}
    (hp : ((decode a.type d).run s.policy).outcome = .ok p) :
    ((change label walk (.deserialize d)).run s).2.outcome = .ok none ∧ ∃ a' c,
      ((change label walk (.deserialize d)).run s).1.At label location a' ∧ a'.label = a.label ∧
      a'.snapshot = ⟨a.type, some c⟩ ∧ c.Typed K a.type ∧ c.normal = p.normal := by
  obtain ⟨root, hroot, hreach⟩ := ha
  have hstage := (stageChange_deserialize hc).2 ⟨p, hp, rfl⟩
  have hnone : ∀ o ∈ (Change.deserialize d).operands, s.Offers o := fun o ho => by cases ho
  obtain ⟨root', after, hroot', hpart, -, hresult⟩ := change_result hK hnone hroot hreach hstage
  have hsound := (change_advances hK hnone label walk).invariant.sound
  refine ⟨by rw [outcome_change hroot hreach, hstage], ⟨a.label, some after⟩, after.relabel HasType.type,
    ⟨root', hroot', hpart⟩, rfl, rfl, ?_, ?_⟩
  · exact Content.typed_relabel.2 (((hsound.values label _ hroot').part? hpart).content after rfl)
  · rw [Content.normal_relabel]
    exact Option.some.inj hresult

/-- A document that one value of a type takes, every constructed value of the type takes; and what they hold
then is the same to look at, whatever they held before. -/
theorem deserialize_forgets (hs : s.Reachable) (ht : t.Reachable) (ha : s.Reaches label walk location a)
    (hb : t.Reaches label' walk' location' b) (hac : a.isConstructed = true) (hbc : b.isConstructed = true)
    (htypes : a.type = b.type) {d : Document}
    (hok : ((change label walk (.deserialize d)).run s).2.outcome = .ok none) :
    ((change label' walk' (.deserialize d)).run t).2.outcome = .ok none ∧ ∃ a' b',
      ((change label walk (.deserialize d)).run s).1.At label location a' ∧ a'.label = a.label ∧
      ((change label' walk' (.deserialize d)).run t).1.At label' location' b' ∧ b'.label = b.label ∧
      a'.snapshot.Resembles b'.snapshot := by
  obtain ⟨K, hK⟩ := hs.invariant
  obtain ⟨L, hL⟩ := ht.invariant
  have htype {M : Set Ty} {r : Session} (hM : r.Invariant M) {label : String} {walk : List Access}
      {location : Location} {v : Value} (hv : r.Reaches label walk location v) : v.type ∈ M := by
    obtain ⟨root, hroot, hreach⟩ := hv
    exact ((hM.sound.values label root hroot).part? (Holder.reachAll_ensures _ _ _ _ hreach)).type
  obtain ⟨p, hp⟩ : ∃ p, ((decode a.type d).run s.policy).outcome = .ok p := by
    obtain ⟨root, hroot, hreach⟩ := ha
    rw [outcome_change hroot hreach] at hok
    rcases hstage : ((a.stageChange (.deserialize d)).run s.policy).outcome with r | e | e <;> rw [hstage] at hok
    case error | panic => cases hok
    obtain ⟨p, hp, -⟩ := (stageChange_deserialize hac).1 hstage
    exact ⟨p, hp⟩
  have hpK := decode_typed hK.sound.catalog (htype hK ha) d _ _ hp
  have hp' : ((decode b.type d).run t.policy).outcome = .ok p := by
    rw [← htypes, decode_run a.type d t.policy s.policy]
    exact hp
  have hpL := decode_typed hL.sound.catalog (htype hL hb) d _ _ hp'
  obtain ⟨-, a', c, hat, hlabel, hsnapshot, hctyped, hcp⟩ := deserialize_result hK ha hac hp
  obtain ⟨hok', b', e, hat', hlabel', hsnapshot', hetyped, hep⟩ := deserialize_result hL hb hbc hp'
  refine ⟨hok', a', b', hat, hlabel, hat', hlabel', ?_⟩
  rw [hsnapshot, hsnapshot', ← htypes]
  rw [← htypes] at hetyped hpL
  exact Holder.resembles_of_normal hK.sound.catalog hL.sound.catalog (htype hK ha) (htypes ▸ htype hL hb) hctyped
    hetyped hpK hpL hcp hep

/-- A lamp that is off in one session and on in another one reads that it is on. -/
def shining : Document := .object [⟨"on", .bool true⟩]

def brightened : Session :=
  ((change "desk" [.member 0] (.assign [⟨none, .operand (.literal (.bool true))⟩])).run lit).1

theorem deserialize_forgets_lit : lit.Reachable ∧ brightened.Reachable ∧
    lit.Reaches "desk" [] [] deskLamp.holder ∧
    brightened.Reaches "desk" [] [] ⟨⟨lampType, 0⟩, some (.struct [⟨⟨boolType, 1⟩, .bool true⟩])⟩ ∧
    ((change "desk" [] (.deserialize shining)).run lit).2.outcome = .ok none ∧
    ((change "desk" [] (.deserialize shining)).run brightened).2.outcome = .ok none ∧
    ∃ a b, ((change "desk" [] (.deserialize shining)).run lit).1.At "desk" [] a ∧
      ((change "desk" [] (.deserialize shining)).run brightened).1.At "desk" [] b ∧
      a.snapshot.Resembles b.snapshot := by
  have hoff : lit.Reaches "desk" [] [] deskLamp.holder := ⟨_, by rfl, by rfl⟩
  have hon : brightened.Reaches "desk" [] [] ⟨⟨lampType, 0⟩, some (.struct [⟨⟨boolType, 1⟩, .bool true⟩])⟩ :=
    ⟨_, by rfl, by rfl⟩
  have hreachable : brightened.Reachable := by
    refine lit_reachable.step (.change (fun o ho => ?_) "desk" [.member 0])
    obtain rfl := List.mem_singleton.1 ho
    trivial
  have hok : ((change "desk" [] (.deserialize shining)).run lit).2.outcome = .ok none := by rfl
  obtain ⟨hok', a, b, ha, -, hb, -, hresembles⟩ :=
    deserialize_forgets lit_reachable hreachable hoff hon rfl rfl rfl hok
  exact ⟨lit_reachable, hreachable, hoff, hon, hok, hok', a, b, ha, hb, hresembles⟩

/-- Prices are shown with two decimals. The cost of a ware is a real like any other, but its default is a price. -/
def price : Definition := { floatType.aliasNamed "price" with
  attributes := [⟨"decimals", .literal (.int 2)⟩] }

def priceType : Ty := price.withIdentity Namespace.builtins.length

def ware : Definition := { Definition.fresh "ware" (.struct none []) with
  shape := .struct none [⟨⟨"cost", none, .child (.child .root "ware") "cost"⟩, floatType,
    some ⟨priceType, .reals [.zero]⟩⟩] }

def wareType : Ty := ware.withIdentity (Namespace.builtins.length + 1)

def branded : Session := ((sealType "price" price "price").run initial).1

def priced : Session := ((change "free" [] (.construct [])).run (branded.create "free" priceType)).1

def shelved : Session := ((sealType "ware" ware "ware").run priced).1

def one : List InitEntry := [⟨none, .operand (.literal (.int 1))⟩]

def stocked : Session :=
  let paid := ((change "paid" [] (.construct one)).run (shelved.create "paid" priceType)).1
  let gift := ((change "gift" [] (.construct [])).run (paid.create "gift" wareType)).1
  ((change "good" [] (.construct one)).run (gift.create "good" wareType)).1

-- A run with reals in it is not evaluated. What is needed of its session is told by lemmas.
theorem make_schema (s : Session) (label : String) (t : Ty) (es : List InitEntry) :
    ((change label [] (.construct es)).run (s.create label t)).1.space = s.space ∧
      ((change label [] (.construct es)).run (s.create label t)).1.types = s.types ∧
      ((change label [] (.construct es)).run (s.create label t)).1.nextIdentity = s.nextIdentity := by
  rcases change_cases (s.create label t) label [] (.construct es) with
    ⟨h, -⟩ | ⟨_, _, _, _, _, -, -, -, h, -⟩ <;> rw [h] <;> exact ⟨rfl, rfl, rfl⟩

theorem sealType_types {s : Session} {d : Definition} {t : Ty} (h : d.sealed s.nextIdentity = .ok t)
    (label : String) : ((sealType label d label).run s).1.types = s.types.put label t := by
  have hrun : (sealType label d label).run s =
      (liftM (Attempt.ofExcept (d.sealed s.nextIdentity)) >>= fun u => do
        Action.set { s.dropDraft label with
          nextIdentity := s.nextIdentity + 1, types := s.types.put label u }
        return u : Action Error Ty).run (s.dropDraft label) := rfl
  rw [hrun, h]
  rfl

theorem priceType_default : defaultContent priceType = .ok (.reals [.zero]) := by
  have hrange : priceType.realRange? = some (RealKind.single.largest.neg, RealKind.single.largest) :=
    Ty.realRange?_unbounded (n := 1) rfl rfl rfl
  have hzero : defaultReal .single (RealKind.single.largest.neg, RealKind.single.largest) = .zero := by
    decide +kernel
  rw [defaultContent_real (n := 1) rfl hrange, hzero]
  rfl

theorem branded_types : branded.types.get? "price" = some priceType := by rfl

theorem priced_reachable : priced.Reachable := by
  have hprice : initial.Builds price := by
    have hfloat : initial.space.type? 10 = some floatType := rfl
    have halias : initial.Builds (floatType.aliasNamed "price") := .aliasOf (.registered hfloat) "price"
    exact halias.annotate (a := ⟨"decimals", .literal (.int 2)⟩) rfl
  have hbranded : branded.Reachable := Reachable.sealType Relation.ReflTransGen.refl hprice "price"
  exact hbranded.make (.kept branded_types) "free" (.construct []) fun o ho => by cases ho

theorem priced_has : priced.Has ⟨priceType, some (.reals [.zero])⟩ := by
  have hfree : branded.Constructs "free" priceType [] (.reals [.zero]) := by
    rw [constructs_iff]
    exact (stage_nil_eq_ok _ _ _).2 priceType_default
  obtain ⟨signal, content, -, hget, hcontent⟩ := hfree
  rw [← hcontent]
  exact .part ⟨"free", _, [], hget, rfl⟩

theorem shelved_reachable : shelved.Reachable := by
  have hspace : priced.space.type? 10 = some floatType := by
    rw [priced, (make_schema ..).1]
    rfl
  have hware : priced.Builds ware := by
    have hempty : priced.Builds (.fresh "ware" (.struct none [])) := .fresh "ware" ⟨rfl, rfl⟩
    have hcost : Member.declare "cost" floatType (some ⟨priceType, some (.reals [.zero])⟩) =
        .ok ⟨.detached "cost", floatType, some ⟨priceType, .reals [.zero]⟩⟩ := rfl
    refine hempty.member (.registered hspace) ?_ hcost rfl
    rintro v ⟨⟩
    exact priced_has
  exact priced_reachable.sealType hware "ware"

theorem shelved_types : shelved.types.get? "price" = some priceType ∧
    shelved.types.get? "ware" = some wareType := by
  have hsealed : ware.sealed priced.nextIdentity = .ok wareType := by
    rw [priced, (make_schema ..).2.2]
    rfl
  rw [shelved, sealType_types hsealed, Table.get?_put, if_neg (by decide), Table.get?_put, if_pos rfl, priced,
    (make_schema ..).2.1]
  exact ⟨branded_types, rfl⟩

theorem stocked_reachable : stocked.Reachable := by
  have hone {s : Session} : ∀ o ∈ (Change.construct one).operands, s.Offers o := by
    intro o ho
    obtain rfl := List.mem_singleton.1 ho
    trivial
  have hpaid := shelved_reachable.make (.kept shelved_types.1) "paid" (.construct one) hone
  have hgift := hpaid.make (.kept (by rw [(make_schema ..).2.1]; exact shelved_types.2)) "gift"
    (.construct []) fun o ho => by cases ho
  exact hgift.make (.kept (by rw [(make_schema ..).2.1, (make_schema ..).2.1]; exact shelved_types.2)) "good"
    (.construct one) hone

/-- Two prices read a negative zero. The one that is zero stays as it is, the other one takes the sign. Two
wares read a cost of zero. One has it as a price and shows two decimals, the other one shows none. -/
theorem deserialize_remembers : stocked.Reachable ∧
    (∀ label ∈ ["free", "paid"],
      (stocked.values.get? label).map (·.type.identity) = some priceType.identity) ∧
    (∃ s t, (change "free" [] (.deserialize (.real (.neg .zero)))).run stocked = s ∧ s.2.outcome = .ok none ∧
      (change "paid" [] (.deserialize (.real (.neg .zero)))).run s.1 = t ∧ t.2.outcome = .ok none ∧
      ((inspect "free" [] .document).run t.1).2.outcome = .ok (.real .zero) ∧
      ((inspect "paid" [] .document).run t.1).2.outcome = .ok (.real (.neg .zero))) ∧
    (∀ label ∈ ["gift", "good"],
      (stocked.values.get? label).map (·.type.identity) = some wareType.identity) ∧
    ∃ s t, (change "gift" [] (.deserialize (.object [⟨"cost", .real .zero⟩]))).run stocked = s ∧
      s.2.outcome = .ok none ∧
      (change "good" [] (.deserialize (.object [⟨"cost", .real .zero⟩]))).run s.1 = t ∧ t.2.outcome = .ok none ∧
      ((inspect "gift" [.member 0] .uiText).run t.1).2.outcome = .ok "0.00" ∧
      ((inspect "good" [.member 0] .uiText).run t.1).2.outcome = .ok "0" := by
  simp only [Result.outcome_eq_ok]
  refine ⟨stocked_reachable, by decide +kernel, ⟨_, _, rfl, by decide +kernel, rfl, by decide +kernel, ?_, ?_⟩,
    by decide +kernel, _, _, rfl, by decide +kernel, rfl, by decide +kernel, by decide +kernel, by decide +kernel⟩
  · exact Document.eq_real.2 (by decide +kernel)
  · exact Document.eq_real.2 (by decide +kernel)

end Session

end TypedValues
