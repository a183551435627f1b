import TypedValues.Proofs.Alternatives

/-! Entries for members. An entry of a list goes to the member that it names, and one without a name to the
member after the one addressed last. A list that a struct is made from addresses no member twice, so every
entry may be named for its member; and among entries with names the order does not matter, because members
are staged in their own order. -/

namespace TypedValues

variable {σ : Type}

/-- Entries with these names, if any, go to the members at these positions; the cursor is where an entry
without a name goes. -/
inductive Addresses (names : List String) : Nat → List (Option String) → List Nat → Prop where
  | nil {cursor : Nat} : Addresses names cursor [] []
  | named {cursor i : Nat} {name : String} {keys : List (Option String)} {positions : List Nat}
      (h : names[i]? = some name) (rest : Addresses names (i + 1) keys positions) :
      Addresses names cursor (some name :: keys) (i :: positions)
  | next {cursor : Nat} {keys : List (Option String)} {positions : List Nat}
      (rest : Addresses names (cursor + 1) keys positions) :
      Addresses names cursor (none :: keys) (cursor :: positions)

theorem Addresses.length {names : List String} {cursor : Nat} {keys : List (Option String)}
    {positions : List Nat} (h : Addresses names cursor keys positions) : positions.length = keys.length := by
  induction h with
  | nil => rfl
  | named _ _ ih => exact congrArg (· + 1) ih
  | next _ ih => exact congrArg (· + 1) ih

/-- The sources have been put into free slots, at positions of their own, and the other slots are as before. -/
structure Filled (slots : List (Option σ)) (positions : List Nat) (sources : List σ)
    (filled : List (Option σ)) : Prop where
  length : filled.length = slots.length
  nodup : positions.Nodup
  free : ∀ i ∈ positions, slots[i]? = some none
  placed : List.Forall₂ (fun i x => filled[i]? = some (some x)) positions sources
  others : ∀ j, j ∉ positions → filled[j]? = slots[j]?

theorem placeAll_cons {names : List String} {slots filled : List (Option σ)} {cursor : Nat}
    {name : Option String} {x : σ} {rest : List (Option String × σ)} :
    placeAll names slots cursor ((name, x) :: rest) = .ok filled ↔
      ∃ i, slotIndex names cursor name = .ok i ∧ slots[i]? = some none ∧
        placeAll names (slots.set i (some x)) (i + 1) rest = .ok filled := by
  rw [placeAll, Except.bind_eq_ok]
  refine exists_congr fun i => and_congr_right fun _ => ?_
  rcases hslot : slots[i]? with _ | _ | _ <;> simp [throw, throwThe, MonadExceptOf.throw]

theorem slotIndex_named {names : List String} {cursor i : Nat} {name : String} :
    slotIndex names cursor (some name) = .ok i ↔ names.findIdx? (· == name) = some i := by
  rw [slotIndex]
  cases names.findIdx? (· == name) <;> simp

theorem slotIndex_eq_ok {names : List String} {cursor i : Nat} {key : Option String}
    (h : slotIndex names cursor key = .ok i) {keys : List (Option String)} {positions : List Nat}
    (hrest : Addresses names (i + 1) keys positions) :
    Addresses names cursor (key :: keys) (i :: positions) := by
  cases key with
  | none =>
    obtain rfl := Except.ok.inj h
    exact .next hrest
  | some name =>
    obtain ⟨hlt, hname, -⟩ := List.findIdx?_eq_some_iff_getElem.1 (slotIndex_named.1 h)
    refine .named ?_ hrest
    rw [List.getElem?_eq_getElem hlt, eq_of_beq hname]

theorem Filled.cons {slots filled : List (Option σ)} {i : Nat} {x : σ} {positions : List Nat}
    {sources : List σ} (hfree : slots[i]? = some none)
    (h : Filled (slots.set i (some x)) positions sources filled) :
    Filled slots (i :: positions) (x :: sources) filled := by
  have htaken : (slots.set i (some x))[i]? = some (some x) :=
    List.getElem?_set_self (List.getElem?_eq_some_iff.1 hfree).1
  have hnew : i ∉ positions := by
    intro hi
    cases htaken.symm.trans (h.free i hi)
  refine ⟨h.length.trans (List.length_set ..), List.nodup_cons.2 ⟨hnew, h.nodup⟩, ?_, ?_, ?_⟩
  · refine List.forall_mem_cons.2 ⟨hfree, fun j hj => ?_⟩
    have hne : i ≠ j := fun heq => hnew (heq ▸ hj)
    rw [← List.getElem?_set_ne hne, h.free j hj]
  · exact .cons ((h.others i hnew).trans htaken) h.placed
  · intro j hj
    rw [List.mem_cons, not_or] at hj
    rw [h.others j hj.2, List.getElem?_set_ne (Ne.symm hj.1)]

/-- Entries that could all be placed address different members. -/
theorem placeAll_filled {names : List String} {slots filled : List (Option σ)} {cursor : Nat}
    {entries : List (Option String × σ)} (h : placeAll names slots cursor entries = .ok filled) :
    ∃ positions, Addresses names cursor (entries.map (·.1)) positions ∧
      Filled slots positions (entries.map (·.2)) filled := by
  induction entries generalizing slots cursor with
  | nil =>
    cases h
    exact ⟨[], .nil, rfl, List.nodup_nil, by simp, .nil, fun _ _ => rfl⟩
  | cons e rest ih =>
    obtain ⟨i, hi, hfree, hrest⟩ := placeAll_cons.1 h
    obtain ⟨positions, haddress, hfilled⟩ := ih hrest
    exact ⟨i :: positions, slotIndex_eq_ok hi haddress, hfilled.cons hfree⟩

/-- Every entry under the name of the member that it addresses. -/
def nameAll (names : List String) (entries : List (Option String × σ)) (positions : List Nat) :
    List (Option String × σ) := List.zipWith (fun e i => (names[i]?, e.2)) entries positions

theorem slotIndex_of_nodup {names : List String} (hnames : names.Nodup) {i : Nat} (hi : i < names.length)
    (cursor : Nat) : slotIndex names cursor names[i]? = .ok i := by
  rw [List.getElem?_eq_getElem hi, slotIndex_named]
  exact findIdx?_of_nodup (f := id) (by rwa [List.map_id]) (List.getElem?_eq_getElem hi)

/-- Named entries fill the slots that they filled without names, wherever the cursor is. -/
theorem placeAll_nameAll {names : List String} (hnames : names.Nodup) {slots filled : List (Option σ)}
    (hlength : slots.length = names.length) {cursor : Nat} {entries : List (Option String × σ)}
    {positions : List Nat} (haddress : Addresses names cursor (entries.map (·.1)) positions)
    (h : placeAll names slots cursor entries = .ok filled) (start : Nat) :
    placeAll names slots start (nameAll names entries positions) = .ok filled := by
  induction entries generalizing slots cursor positions start with
  | nil =>
    cases haddress
    exact h
  | cons e rest ih =>
    obtain ⟨i, hi, hfree, hrest⟩ := placeAll_cons.1 h
    have hlt : i < names.length := hlength ▸ (List.getElem?_eq_some_iff.1 hfree).1
    have hset : (slots.set i (some e.2)).length = names.length := by rw [List.length_set, hlength]
    rcases e with ⟨key, x⟩
    have hhead : ∃ tail, positions = i :: tail ∧ Addresses names (i + 1) (rest.map (·.1)) tail := by
      cases haddress with
      | @named _ j name _ tail hj htail =>
        obtain ⟨hjlt, hname⟩ := List.getElem?_eq_some_iff.1 hj
        have hindex := slotIndex_of_nodup hnames hjlt cursor
        rw [List.getElem?_eq_getElem hjlt, hname, hi] at hindex
        obtain rfl := Except.ok.inj hindex
        exact ⟨tail, rfl, htail⟩
      | next htail =>
        obtain rfl := Except.ok.inj hi
        exact ⟨_, rfl, htail⟩
    obtain ⟨tail, rfl, htail⟩ := hhead
    exact placeAll_cons.2 ⟨i, slotIndex_of_nodup hnames hlt start, hfree, ih hset htail hrest (i + 1)⟩

/-- Where the cursor is does not matter to a name, and so not to entries that all have one. -/
theorem placeAll_named {names : List String} {entries : List (Option String × σ)}
    (hnamed : ∀ e ∈ entries, e.1.isSome) (slots : List (Option σ)) (cursor cursor' : Nat) :
    placeAll names slots cursor entries = placeAll names slots cursor' entries := by
  rcases entries with _ | ⟨⟨key, x⟩, rest⟩
  · rfl
  · obtain ⟨name, rfl⟩ := Option.isSome_iff_exists.1 (hnamed _ List.mem_cons_self)
    rfl

/-- Entries with names fill the same slots in any order. -/
theorem placeAll_perm {names : List String} {entries entries' : List (Option String × σ)}
    (hperm : entries.Perm entries') (hnamed : ∀ e ∈ entries, e.1.isSome) {slots filled : List (Option σ)}
    {cursor : Nat} (h : placeAll names slots cursor entries = .ok filled) :
    placeAll names slots cursor entries' = .ok filled := by
  induction hperm generalizing slots cursor with
  | nil => exact h
  | cons e _ ih =>
    rw [List.forall_mem_cons] at hnamed
    obtain ⟨i, hi, hfree, hrest⟩ := placeAll_cons.1 h
    exact placeAll_cons.2 ⟨i, hi, hfree, ih hnamed.2 hrest⟩
  | swap a b rest =>
    rcases a with ⟨key, x⟩
    rcases b with ⟨key', y⟩
    simp only [List.forall_mem_cons, Option.isSome_iff_exists] at hnamed
    obtain ⟨⟨name', rfl⟩, ⟨name, rfl⟩, hnamed⟩ := hnamed
    obtain ⟨i, hi, hifree, h⟩ := placeAll_cons.1 h
    obtain ⟨j, hj, hjfree, h⟩ := placeAll_cons.1 h
    have hne : i ≠ j := by
      rintro rfl
      rw [List.getElem?_set_self (List.getElem?_eq_some_iff.1 hifree).1] at hjfree
      cases hjfree
    rw [List.getElem?_set_ne hne] at hjfree
    refine placeAll_cons.2 ⟨j, hj, hjfree, placeAll_cons.2 ⟨i, hi, ?_, ?_⟩⟩
    · rw [List.getElem?_set_ne hne.symm, hifree]
    · rw [← List.set_comm _ _ hne, placeAll_named fun e he => (Option.isSome_iff_exists.2 (hnamed e he))]
      exact h
  | trans hfirst _ ih ih' =>
    exact ih' (fun e he => hnamed e (hfirst.mem_iff.2 he)) (ih hnamed h)

theorem memberSlots_eq_ok {t : Ty} {members : List Member} {entries : List (Option String × σ)}
    {slots : List (Option σ)} : memberSlots t members entries = .ok slots ↔
      placeAll (members.map (·.name)) (List.replicate members.length none) 0 entries = .ok slots := by
  rw [memberSlots]
  cases placeAll (members.map (·.name)) (List.replicate members.length none) 0 entries <;> simp

/-- The node is what the member gets from its slot: staged from the initializer there, else the default. -/
def Member.Takes (m : Member) (p : Policy) (slot : Option Initializer) (n : Node Ty) : Prop :=
  match slot with
  | some i => ∃ c, ((stage m.type i.input).run p).outcome = .ok c ∧ n = ⟨m.type, c⟩
  | none => m.defaultNode = .ok n

theorem stageMembers_eq_ok {ms : List Member} {slots : List (Option Initializer)} {p : Policy}
    {ns : List (Node Ty)} (h : ((stageMembers ms slots).run p).outcome = .ok ns) :
    ns.length = ms.length ∧ ∀ (i : Nat) (m : Member), ms[i]? = some m →
      ∃ n, ns[i]? = some n ∧ m.Takes p slots[i]?.join n := by
  induction ms generalizing slots ns with
  | nil =>
    cases h
    exact ⟨rfl, fun i m hm => by cases hm⟩
  | cons m ms ih =>
    rcases m with ⟨symbol, type, default⟩
    rw [stageMembers, Attempt.bind_eq_ok] at h
    obtain ⟨n, hn, h⟩ := h
    obtain ⟨rest, hrest, hns⟩ := Attempt.bind_eq_ok.1 h
    cases hns
    obtain ⟨hlength, htakes⟩ := ih hrest
    refine ⟨congrArg (· + 1) hlength, fun i m hm => ?_⟩
    cases i with
    | zero =>
      cases hm
      refine ⟨n, rfl, ?_⟩
      rw [← List.head?_eq_getElem?]
      rw [Attempt.under_eq_ok] at hn
      cases hi : slots.head?.join with
      | some i =>
        rw [hi] at hn
        obtain ⟨c, hc, hn⟩ := Attempt.bind_eq_ok.1 hn
        cases hn
        exact ⟨c, hc, rfl⟩
      | none =>
        rw [hi] at hn
        exact Attempt.ofExcept_eq_ok.1 hn
    | succ i =>
      obtain ⟨n', hn', htake⟩ := htakes i m hm
      rw [List.getElem?_tail] at htake
      exact ⟨n', hn', htake⟩

/-- A struct is staged from entries that are not settled by filling slots, and then member by member. -/
theorem stage_struct_eq_ok {t : Ty} {base : Option Ty} {members : List Member}
    (hs : t.shape = .struct base members) {es : List InitEntry} (hsettled : settled? t es = none) {p : Policy}
    {c : Content Ty} : ((stage t (.entries es)).run p).outcome = .ok c ↔
      ∃ slots ns, memberSlots t members (es.map fun e => (e.name, e.initializer)) = .ok slots ∧
        ((stageMembers members slots).run p).outcome = .ok ns ∧ c = .struct ns := by
  rw [stage_struct hsettled hs, Attempt.bind_eq_ok]
  constructor
  · rintro ⟨slots, hslots, h⟩
    obtain ⟨ns, hns, hc⟩ := Attempt.bind_eq_ok.1 h
    cases hc
    exact ⟨slots, ns, Attempt.ofExcept_eq_ok.1 hslots, hns, rfl⟩
  · rintro ⟨slots, ns, hslots, hns, rfl⟩
    exact ⟨slots, Attempt.ofExcept_eq_ok.2 hslots, Attempt.bind_eq_ok.2 ⟨ns, hns, rfl⟩⟩

/-- What the members of a struct take from entries: each entry goes to a member of its own, which is staged from
it, and the members without an entry have their defaults. -/
structure Taken (members : List Member) (p : Policy) (es : List InitEntry) (positions : List Nat)
    (ns : List (Node Ty)) : Prop where
  length : ns.length = members.length
  addresses : Addresses (members.map (·.name)) 0 (es.map (·.name)) positions
  nodup : positions.Nodup
  entries : List.Forall₂ (fun e i => ∃ m n, members[i]? = some m ∧ ns[i]? = some n ∧
    m.Takes p (some e.initializer) n) es positions
  defaults : ∀ (i : Nat) (m : Member), members[i]? = some m → i ∉ positions →
    ∃ n, ns[i]? = some n ∧ m.defaultNode = .ok n

namespace InitEntry

def nameEach (members : List Member) (es : List InitEntry) (positions : List Nat) : List InitEntry :=
  List.zipWith (fun e i => ⟨(members[i]?).map (·.name), e.initializer⟩) es positions

theorem map_nameEach (members : List Member) (es : List InitEntry) (positions : List Nat) :
    (nameEach members es positions).map (fun e => (e.name, e.initializer)) =
      nameAll (members.map (·.name)) (es.map fun e => (e.name, e.initializer)) positions := by
  rw [nameEach, nameAll, List.map_zipWith, List.zipWith_map_left]
  simp only [List.getElem?_map]

end InitEntry

theorem Taken.named {members : List Member} {p : Policy} {es : List InitEntry} {positions : List Nat}
    {ns : List (Node Ty)} (h : Taken members p es positions ns) :
    ∀ e ∈ InitEntry.nameEach members es positions, e.name.isSome := by
  rw [InitEntry.nameEach, ← List.map_uncurry_zip_eq_zipWith, List.forall_mem_map]
  rintro ⟨e, i⟩ hmem
  obtain ⟨m, n, hm, -⟩ := List.forall₂_zip h.entries hmem
  simp [hm]

section

variable {t : Ty} {base : Option Ty} {members : List Member} (hs : t.shape = .struct base members)
  {es : List InitEntry} {p : Policy} {c : Content Ty}

include hs

theorem stageList_struct_eq_ok (hes : 2 ≤ es.length) : ((stageList t es).run p).outcome = .ok c ↔
    ∃ slots ns, memberSlots t members (es.map fun e => (e.name, e.initializer)) = .ok slots ∧
      ((stageMembers members slots).run p).outcome = .ok ns ∧ c = .struct ns := by
  rw [stageList, Input.ofList, peel_of_many hes]
  exact stage_struct_eq_ok hs (settled?_of_many hes t)

/-- The order of entries with names does not matter. -/
theorem stageList_perm (hnamed : ∀ e ∈ es, e.name.isSome) {es' : List InitEntry} (hperm : es.Perm es')
    (h : ((stageList t es).run p).outcome = .ok c) : ((stageList t es').run p).outcome = .ok c := by
  by_cases hes : 2 ≤ es.length
  · obtain ⟨slots, ns, hslots, hns, rfl⟩ := (stageList_struct_eq_ok hs hes).1 h
    refine (stageList_struct_eq_ok hs (hperm.length_eq ▸ hes)).2 ⟨slots, ns, ?_, hns, rfl⟩
    rw [memberSlots_eq_ok] at hslots ⊢
    exact placeAll_perm (hperm.map _) (List.forall_mem_map.2 hnamed) hslots
  -- one entry, or none, has no other order
  · obtain rfl : es = es' := by
      rcases es with _ | ⟨e, _ | _⟩
      · exact hperm.nil_eq
      · exact hperm.singleton_eq
      · simp at hes
    exact h

theorem stageList_taken (hes : 2 ≤ es.length) (h : ((stageList t es).run p).outcome = .ok c) :
    ∃ positions ns, c = .struct ns ∧ Taken members p es positions ns := by
  obtain ⟨slots, ns, hslots, hns, rfl⟩ := (stageList_struct_eq_ok hs hes).1 h
  obtain ⟨hlength, htakes⟩ := stageMembers_eq_ok hns
  obtain ⟨positions, haddress, hfilled⟩ := placeAll_filled (memberSlots_eq_ok.1 hslots)
  rw [List.map_map] at haddress
  have hplaced := hfilled.placed
  rw [List.map_map, List.forall₂_map_right_iff] at hplaced
  refine ⟨positions, ns, rfl, hlength, haddress, hfilled.nodup, ?_, fun i m hm hi => ?_⟩
  · refine (hplaced.imp fun i e hslot => ?_).flip
    obtain ⟨hlt, -⟩ := List.getElem?_eq_some_iff.1 hslot
    rw [hfilled.length, List.length_replicate] at hlt
    obtain ⟨n, hn, htake⟩ := htakes i members[i] (List.getElem?_eq_getElem hlt)
    rw [hslot] at htake
    exact ⟨_, n, List.getElem?_eq_getElem hlt, hn, htake⟩
  · obtain ⟨n, hn, htake⟩ := htakes i m hm
    rw [hfilled.others i hi, List.getElem?_replicate_of_lt (List.getElem?_eq_some_iff.1 hm).1] at htake
    exact ⟨n, hn, htake⟩

/-- Entries that are named for the members they went to are taken alike. -/
theorem stageList_nameEach (hnames : (members.map (·.name)).Nodup) (hes : 2 ≤ es.length)
    (h : ((stageList t es).run p).outcome = .ok c) {positions : List Nat}
    (haddress : Addresses (members.map (·.name)) 0 (es.map (·.name)) positions) :
    ((stageList t (InitEntry.nameEach members es positions)).run p).outcome = .ok c := by
  obtain ⟨slots, ns, hslots, hns, rfl⟩ := (stageList_struct_eq_ok hs hes).1 h
  have hlength : positions.length = es.length := by rw [haddress.length, List.length_map]
  refine (stageList_struct_eq_ok hs ?_).2 ⟨slots, ns, ?_, hns, rfl⟩
  · rwa [InitEntry.nameEach, List.length_zipWith, hlength, Nat.min_self]
  · rw [memberSlots_eq_ok, InitEntry.map_nameEach]
    refine placeAll_nameAll hnames (by simp) ?_ (memberSlots_eq_ok.1 hslots) 0
    rwa [List.map_map]

end

namespace Session

/-- What a struct is made from, if it is two entries or more, goes to different members, and the others have
their defaults. With the name of its member on every entry the struct is made alike, in any order; and so it is
from any entries that all have names. -/
theorem named_alike {s : Session} (hs : s.Reachable) {t : Ty} (ht : s.Knows t) {base : Option Ty}
    {members : List Member} (hshape : t.shape = .struct base members) {es : List InitEntry}
    (ho : ∀ o ∈ InitEntry.operandsAll es, s.Offers o) {label : String} {c : Content Ty}
    (hc : s.Constructs label t es c) :
    c.equals c = true ∧
    (2 ≤ es.length → ∃ positions ns, c = .struct ns ∧ Taken members s.policy es positions ns ∧
      ∀ es', (InitEntry.nameEach members es positions).Perm es' → s.Constructs label t es' c) ∧
    ((∀ e ∈ es, e.name.isSome) → ∀ es', es.Perm es' → s.Constructs label t es' c) := by
  obtain ⟨K, hK⟩ := hs.invariant
  have hknown := hK.sound.knows ht
  rw [constructs_iff] at hc
  simp only [constructs_iff]
  refine ⟨?_, fun hes => ?_, fun hnamed es' hperm => stageList_perm hshape hnamed hperm hc⟩
  · have htyped := stageList_typed hK.sound.catalog hknown fun o hmem => hK.sound.offers (ho o hmem)
    exact (htyped _ c hc).fits.equals_self
  · have hnames : (members.map (·.name)).Nodup := by
      have hvalid := (hK.sound.catalog.valid t hknown).shape.names
      rwa [Ty.definition, hshape] at hvalid
    obtain ⟨positions, ns, hns, htaken⟩ := stageList_taken hshape hes hc
    have heach := stageList_nameEach hshape hnames hes hc htaken.addresses
    exact ⟨positions, ns, hns, htaken, fun es' hperm => stageList_perm hshape htaken.named hperm heach⟩

/-- A sign is a lamp with a text and a spare flag. -/
def sign : Definition :=
  let path (name : String) : Path := .child (.child .root "sign") name
  { Definition.fresh "sign" (.struct none []) with
    shape := .struct (some lampType) (lampType.shape.members ++ [
      ⟨⟨"text", none, path "text"⟩, stringType, none⟩, ⟨⟨"spare", none, path "spare"⟩, boolType, none⟩]) }

def signType : Ty := sign.withIdentity lit.nextIdentity

def signed : Session := ((sealType "sign" sign "sign").run lit).1

theorem signed_reachable : signed.Reachable := by
  have hbool : lit.space.type? 0 = some boolType := by rfl
  have hstring : lit.space.type? 1 = some stringType := by rfl
  have hlamp : lit.types.get? "lamp" = some lampType := by rfl
  have hempty : lit.Builds (.fresh "sign" (.struct none [])) := .fresh "sign" ⟨rfl, rfl⟩
  have htext : Member.declare "text" stringType none = .ok ⟨.detached "text", stringType, none⟩ := rfl
  have hspare : Member.declare "spare" boolType none = .ok ⟨.detached "spare", boolType, none⟩ := rfl
  have hbase : lit.Builds { Definition.fresh "sign" (.struct none []) with
      shape := .struct (some lampType) lampType.shape.members } := hempty.base (.kept hlamp) rfl
  have hbuilds := hbase.member (.registered hstring) (fun v hv => by cases hv) htext rfl
  exact lit_reachable.sealType (hbuilds.member (.registered hbool) (fun v hv => by cases hv) hspare rfl) "sign"

def signList : List InitEntry :=
  [⟨some "text", .operand (.literal (.text "exit"))⟩, ⟨none, .operand (.literal (.bool true))⟩]

def exitSign : Content Ty :=
  .struct [⟨boolType, .bool false⟩, ⟨stringType, .text "exit"⟩, ⟨boolType, .bool true⟩]

/-- The sign is made from the flag first as well, once both entries have names. -/
theorem named_alike_signed : signed.Reachable ∧ signed.Knows signType ∧
    signType.shape = .struct (some lampType) sign.shape.members ∧
    (∀ o ∈ InitEntry.operandsAll signList, signed.Offers o) ∧ signed.Constructs "v" signType signList exitSign ∧
    signed.Constructs "v" signType [⟨some "spare", .operand (.literal (.bool true))⟩,
      ⟨some "text", .operand (.literal (.text "exit"))⟩] exitSign := by
  have hsign : signed.types.get? "sign" = some signType := by rfl
  have hoffers : ∀ o ∈ InitEntry.operandsAll signList, signed.Offers o :=
    List.forall_mem_cons.2 ⟨trivial, List.forall_mem_cons.2 ⟨trivial, fun o ho => by cases ho⟩⟩
  have hmade : signed.Constructs "v" signType signList exitSign := by
    rw [constructs_iff]
    rfl
  obtain ⟨-, heach, -⟩ := named_alike signed_reachable (.kept hsign) rfl hoffers hmade
  obtain ⟨positions, ns, -, htaken, halike⟩ := heach le_rfl
  refine ⟨signed_reachable, .kept hsign, rfl, hoffers, hmade, halike _ ?_⟩
  obtain rfl : positions = [1, 2] := by
    have haddress : Addresses ["on", "text", "spare"] 0 [some "text", none] positions := htaken.addresses
    cases haddress with
    | @named _ i _ _ _ hi hrest =>
      cases hrest with
      | next hrest =>
        cases hrest
        rcases i with _ | _ | _ | i <;> simp at hi ⊢
  exact List.Perm.swap ..

end Session

end TypedValues
