import TypedValues.Proofs.Keys

/-! Missing keys. A member whose key is taken out of a document has its default, and all else is read as before.
Where the member has no default, the document is refused. -/

namespace TypedValues

namespace Field

variable {fields : List Field} {key other : String}

def erase (key : String) (fields : List Field) : List Field := fields.filter (·.key != key)

theorem get?_erase_self (key : String) (fields : List Field) : get? key (erase key fields) = none := by
  induction fields with
  | nil => rfl
  | cons f fields ih =>
    by_cases hf : f.key = key
    · rw [erase, List.filter_cons_of_neg (by simpa using hf)]
      exact ih
    · rw [erase, List.filter_cons_of_pos (by simpa using hf), get?, if_neg hf]
      exact ih

theorem get?_erase_of_ne (h : other ≠ key) : get? other (erase key fields) = get? other fields := by
  induction fields with
  | nil => rfl
  | cons f fields ih =>
    rw [get?]
    by_cases hf : f.key = key
    · rw [erase, List.filter_cons_of_neg (by simpa using hf), if_neg fun hother => h (hother.symm.trans hf)]
      exact ih
    · rw [erase, List.filter_cons_of_pos (by simpa using hf), get?]
      exact congrArg (ite _ _) ih

theorem get?_insert_self (key : String) (d : Document) (fields : List Field) :
    get? key (insert key d fields) = some d := by
  induction fields with
  | nil => rw [insert, get?, if_pos rfl]
  | cons f fields ih =>
    rw [insert]
    split
    next => rw [get?, if_pos rfl]
    next hf => rw [get?, if_neg hf, ih]

theorem get?_insert_of_ne (h : other ≠ key) (d : Document) :
    get? other (insert key d fields) = get? other fields := by
  induction fields with
  | nil => simp [insert, get?, h.symm]
  | cons f fields ih =>
    rw [insert]
    split
    next hf => rw [get?, get?, if_neg h.symm, if_neg (hf ▸ h.symm)]
    next => rw [get?, get?, ih]

end Field

namespace Attempt

variable {α β γ : Type} {p : Policy} {x : Except Error α} {g : α → β}

/-- The attempt gives what `g` makes of the result, or fails if that is an error. -/
structure RestsOn (p : Policy) (x : Except Error α) (g : α → β) (y : Attempt Error β) : Prop where
  ok {a : α} (h : x = .ok a) : (y.run p).outcome = .ok (g a)
  error {e : Error} (h : x = .error e) : ∃ e', (y.run p).outcome = .error e'

theorem restsOn_ofExcept (p : Policy) (x : Except Error α) : RestsOn p x id (liftM x) where
  ok h := ofExcept_eq_ok.2 h
  error h := ⟨_, by rw [h]; rfl⟩

theorem RestsOn.under {y : Attempt Error β} (h : y.RestsOn p x g) (site : Site) :
    (y.under site).RestsOn p x g where
  ok ha := under_eq_ok.2 (h.ok ha)
  error he := by
    obtain ⟨e', he'⟩ := h.error he
    exact ⟨e'.within site, by simp [Attempt.under, mapError, Result.mapError, he']⟩

/-- What comes after such an attempt, and gives something whatever is passed to it, rests on the same result. -/
theorem RestsOn.bind {y : Attempt Error β} (h : y.RestsOn p x g) {f : β → Attempt Error γ} {k : β → γ}
    (hf : ∀ b, ((f b).run p).outcome = .ok (k b)) : (y >>= f).RestsOn p x (k ∘ g) where
  ok ha := bind_eq_ok.2 ⟨_, h.ok ha, hf _⟩
  error he := by
    obtain ⟨e', he'⟩ := h.error he
    exact ⟨e', by rw [run_bind, Result.andThen_of_error he']⟩

theorem RestsOn.map {y : Attempt Error β} (h : y.RestsOn p x g) (k : β → γ) :
    (do return k (← y) : Attempt Error γ).RestsOn p x fun a => k (g a) := h.bind fun _ => rfl

theorem restsOn_bind {z : Attempt Error γ} {c : γ} (hz : (z.run p).outcome = .ok c) {f : γ → Attempt Error β}
    (h : (f c).RestsOn p x g) : (z >>= f).RestsOn p x g where
  ok ha := bind_eq_ok.2 ⟨c, hz, h.ok ha⟩
  error he := by
    obtain ⟨e', he'⟩ := h.error he
    exact ⟨e', by rw [run_bind, Result.andThen_of_ok hz, he']⟩

theorem RestsOn.fails_iff {y : Attempt Error β} (h : y.RestsOn p x g) :
    (∃ e, (y.run p).outcome = .error e) ↔ ∀ a, x ≠ .ok a := by
  cases x with
  | ok a => simp [h.ok rfl]
  | error e => simp [h.error rfl]

variable {xs : List (Attempt Error β)} {ys : List β}

theorem mapM_id_eq_ok : ((xs.mapM id).run p).outcome = .ok ys ↔
    List.Forall₂ (fun x y => (x.run p).outcome = .ok y) xs ys := by
  induction xs generalizing ys with
  | nil => simp [eq_comm]
  | cons x xs ih =>
    rw [List.mapM_cons, List.forall₂_cons_left_iff]
    simp only [bind_eq_ok, ih, run_pure, Outcome.ok.injEq, id]
    constructor
    · rintro ⟨y, hy, rest, hrest, rfl⟩
      exact ⟨y, rest, hy, hrest, rfl⟩
    · rintro ⟨y, rest, hy, hrest, rfl⟩
      exact ⟨y, hy, rest, hrest, rfl⟩

/-- Where all attempts give something, and another one takes the place of one of them, the whole rests on what that
one rests on. -/
theorem RestsOn.mapM_set (h : ((xs.mapM id).run p).outcome = .ok ys) {i : Nat} (hi : i < xs.length)
    {y : Attempt Error β} (hy : y.RestsOn p x g) :
    ((xs.set i y).mapM id).RestsOn p x fun a => ys.set i (g a) := by
  induction mapM_id_eq_ok.1 h generalizing i with
  | nil => simp at hi
  | @cons x' y' xs ys hx hxs ih =>
    have hrest := mapM_id_eq_ok.2 hxs
    cases i with
    | zero =>
      rw [List.set_cons_zero, List.mapM_cons]
      exact hy.bind (k := (· :: ys)) fun b => bind_eq_ok.2 ⟨ys, hrest, rfl⟩
    | succ i =>
      rw [List.set_cons_succ, List.mapM_cons]
      exact restsOn_bind hx ((ih hrest (Nat.lt_of_succ_lt_succ hi)).map (y' :: ·))

end Attempt

theorem decodeMembers_eq_mapM (ms : List Member) (fields : List Field) :
    decodeMembers ms fields = (ms.map fun m => decodeMember m (Field.get? m.name fields)).mapM id := by
  induction ms with
  | nil => rfl
  | cons m ms ih => rw [decodeMembers_cons, List.map_cons, List.mapM_cons, ih, id]

theorem attemptElements_eq_mapM {σ α : Type} (f : σ → Attempt Error α) (i : Nat) (xs : List σ) :
    attemptElements f i xs = (xs.mapIdx fun j x => (f x).under (.element (i + j))).mapM id := by
  induction xs generalizing i with
  | nil => rfl
  | cons x xs ih =>
    have hshift (j : Nat) : i + 1 + j = i + (j + 1) := by omega
    rw [attemptElements, ih, List.mapIdx_cons, List.mapM_cons]
    simp only [hshift]
    rfl

/-- A document for a type, and the same document without the key of a member of a struct in it. The location is
that of the member in the value that is read. -/
inductive Document.Without (m : Member) : Ty → Location → Document → Document → Prop where
  | here {t : Ty} {base : Option Ty} {members : List Member} {i : Nat} {fields : List Field}
      (hs : t.shape = .struct base members) (hm : members[i]? = some m) :
      Without m t [i] (.object fields) (.object (Field.erase m.name fields))
  | optional {t u : Ty} {location : Location} {d d' : Document} (hs : t.shape = .optional (some u))
      (h : Without m u location d d') : Without m t (0 :: location) d d'
  | array {t u : Ty} {location : Location} {ds : List Document} {i : Nat} {d d' : Document}
      (hs : t.shape = .array (some u)) (hd : ds[i]? = some d) (h : Without m u location d d') :
      Without m t (i :: location) (.array ds) (.array (ds.set i d'))
  | struct {t : Ty} {base : Option Ty} {members : List Member} {location : Location} {fields : List Field}
      {i : Nat} {m' : Member} {d d' : Document} (hs : t.shape = .struct base members) (hm : members[i]? = some m')
      (hd : Field.get? m'.name fields = some d) (h : Without m m'.type location d d') :
      Without m t (i :: location) (.object fields) (.object (Field.insert m'.name d' fields))
  | variant {t u : Ty} {us : List Ty} {location : Location} {fields : List Field} {i : Nat} {d d' : Document}
      (hs : t.shape = .variant us) (hd : variantFields t us fields = .ok (i, d)) (hu : us[i]? = some u)
      (h : Without m u location d d') :
      Without m t (0 :: location) (.object fields) (.object (Field.insert variantValueKey d' fields))

theorem Document.Without.ne_null {m : Member} {t : Ty} {location : Location} {d d' : Document}
    (h : Without m t location d d') : d ≠ .null ∧ d' ≠ .null := by
  induction h with
  | optional _ _ ih => exact ih
  | here | array | struct | variant => exact ⟨nofun, nofun⟩

def decodeNode (t : Ty) (d : Document) : Attempt Error (Node Ty) := do return ⟨t, ← decode t d⟩

section

variable {t : Ty} {p : Policy} {c : Content Ty} {x : Except Error (Node Ty)}

theorem decodeNode_eq_ok {d : Document} {n : Node Ty} : ((decodeNode t d).run p).outcome = .ok n ↔
    ∃ c, ((decode t d).run p).outcome = .ok c ∧ ⟨t, c⟩ = n := Attempt.bind_pure_eq_ok

theorem decodeNode_eq_error {d : Document} {e : Error} : ((decodeNode t d).run p).outcome = .error e ↔
    ((decode t d).run p).outcome = .error e := by
  rw [decodeNode, Attempt.run_bind, Result.andThen]
  cases ((decode t d).run p).outcome <;> simp

theorem decode_optional_node {u : Ty} (hs : t.shape = .optional (some u)) {d : Document} (hd : d ≠ .null) :
    decode t d = (do return .optional (some (← decodeNode u d))) := by
  simp only [decode_optional hs hd, decodeNode, bind_assoc, pure_bind]

theorem decode_variant_node {u : Ty} {us : List Ty} (hs : t.shape = .variant us) {fields : List Field} {i : Nat}
    {d : Document} (h : variantFields t us fields = .ok (i, d)) (hu : us[i]? = some u) :
    decode t (.object fields) = (do return .variant i (← decodeNode u d)) := by
  obtain ⟨u', hu', hread⟩ := decode_named hs h
  cases hu.symm.trans hu'
  simp only [hread, decodeNode, bind_assoc, pure_bind]

theorem variantFields_insert {us : List Ty} {fields : List Field} {i : Nat} {d : Document}
    (h : variantFields t us fields = .ok (i, d)) (d' : Document) :
    variantFields t us (Field.insert variantValueKey d' fields) = .ok (i, d') := by
  obtain ⟨name, hname, -, hi⟩ := variantFields_eq_ok.1 h
  have hne : variantTypeKey ≠ variantValueKey := by decide
  exact variantFields_eq_ok.2 ⟨name, (Field.get?_insert_of_ne hne d').trans hname, Field.get?_insert_self .., hi⟩

/-- Where a part of what is read rests on a result, the whole does. -/
theorem decodeNode_restsOn {d' : Document} {i : Nat} {location : Location} {child : Node Ty}
    (hchild : c.children[i]? = some child) (hold : ∃ old, child.get? location = some old)
    (h : (decode t d').RestsOn p x fun n => c.setChild i (child.set location n)) :
    (∃ old, (⟨t, c⟩ : Node Ty).get? (i :: location) = some old) ∧
      (decodeNode t d').RestsOn p x fun n => (⟨t, c⟩ : Node Ty).set (i :: location) n := by
  have hget := Node.get?_cons ⟨t, c⟩ i location
  rw [hchild] at hget
  have hset (n : Node Ty) := Node.set_cons (n := ⟨t, c⟩) hchild location n
  simp only [hget, hset]
  exact ⟨hold, h.map (Node.mk t)⟩

theorem decodeMembers_get {ms : List Member} {fields : List Field} {ns : List (Node Ty)}
    (h : ((decodeMembers ms fields).run p).outcome = .ok ns) {i : Nat} {m : Member} (hm : ms[i]? = some m) :
    ∃ n, ns[i]? = some n ∧ ((decodeMember m (Field.get? m.name fields)).run p).outcome = .ok n := by
  rw [decodeMembers_eq_mapM, Attempt.mapM_id_eq_ok, List.forall₂_map_left_iff] at h
  obtain ⟨hi, rfl⟩ := List.getElem?_eq_some_iff.1 hm
  have hi' : i < ns.length := h.length_eq ▸ hi
  exact ⟨_, List.getElem?_eq_getElem hi', h.get hi hi'⟩

theorem decode_struct_eq_ok {base : Option Ty} {members : List Member} (hs : t.shape = .struct base members)
    {fields : List Field} : ((decode t (.object fields)).run p).outcome = .ok c ↔
      ∃ ns, ((decodeMembers members fields).run p).outcome = .ok ns ∧ .struct ns = c := by
  rw [decode_struct hs, Attempt.bind_eq_ok]
  simp only [Attempt.bind_pure_eq_ok]
  exact ⟨fun ⟨_, _, h⟩ => h, fun h => ⟨(), rfl, h⟩⟩

/-- Fields that differ under the key of one member give what that member makes of them, and else the same. -/
theorem decode_struct_restsOn {base : Option Ty} {members : List Member} (hs : t.shape = .struct base members)
    (hnames : (members.map (·.name)).Nodup) {fields fields' : List Field} {ns : List (Node Ty)}
    (hns : ((decodeMembers members fields).run p).outcome = .ok ns) {i : Nat} {m : Member}
    (hm : members[i]? = some m)
    (hothers : ∀ key, key ≠ m.name → Field.get? key fields' = Field.get? key fields) {g : Node Ty → Node Ty}
    (hmember : (decodeMember m (Field.get? m.name fields')).RestsOn p x g) :
    (decode t (.object fields')).RestsOn p x fun n => .struct (ns.set i (g n)) := by
  obtain ⟨hi, rfl⟩ := List.getElem?_eq_some_iff.1 hm
  have hset : members.map (fun m => decodeMember m (Field.get? m.name fields')) =
      (members.map fun m => decodeMember m (Field.get? m.name fields)).set i
        (decodeMember members[i] (Field.get? members[i].name fields')) := by
    -- no other member has the name, so the others find what they found before
    refine List.ext_getElem (by simp) fun j hj _ => ?_
    rw [List.length_map] at hj
    rw [List.getElem_set, List.getElem_map, List.getElem_map]
    split
    next hij => cases hij; rfl
    next hij =>
      rw [hothers]
      intro hname
      refine hij ((List.getElem?_inj (by simpa using hi) hnames).1 ?_)
      rw [List.getElem?_map, List.getElem?_map, hm, List.getElem?_eq_getElem hj, Option.map_some, Option.map_some,
        hname]
  rw [decode_struct hs]
  refine Attempt.restsOn_bind (Attempt.gives_record _ p) (Attempt.RestsOn.map ?_ Content.struct)
  rw [decodeMembers_eq_mapM] at hns ⊢
  rw [hset]
  exact hmember.mapM_set hns (by simpa using hi)

end

/-- What is read without the key of a member is what is read with it, but for the default of the member. -/
theorem decode_without {K : Set Ty} {next : Nat} (hK : Catalog K next) {m : Member} {t : Ty} {location : Location}
    {d d' : Document} (h : Document.Without m t location d d') (ht : t ∈ K) {p : Policy} {c : Content Ty}
    (hc : ((decode t d).run p).outcome = .ok c) :
    (∃ old, (⟨t, c⟩ : Node Ty).get? location = some old) ∧
      (decodeNode t d').RestsOn p m.defaultNode fun n => (⟨t, c⟩ : Node Ty).set location n := by
  have hnames {t : Ty} {base : Option Ty} {members : List Member} (ht : t ∈ K)
      (hs : t.shape = .struct base members) : (members.map (·.name)).Nodup := by
    have h : (t.shape.members.map (·.name)).Nodup := (hK.valid t ht).shape.names
    rwa [hs] at h
  -- the way down to the member; what stands beside it on the way is read from the same documents again
  induction h generalizing c with
  | @here t base members i fields hs hm =>
    obtain ⟨ns, hns, rfl⟩ := (decode_struct_eq_ok hs).1 hc
    obtain ⟨old, hold, -⟩ := decodeMembers_get hns hm
    refine decodeNode_restsOn hold ⟨old, rfl⟩ (decode_struct_restsOn hs (hnames ht hs) hns hm
      (fun key hkey => Field.get?_erase_of_ne hkey) ?_)
    rw [Field.get?_erase_self]
    exact (Attempt.restsOn_ofExcept p m.defaultNode).under _
  | @optional t u location d d' hs h ih =>
    rw [decode_optional_node hs h.ne_null.1, Attempt.bind_pure_eq_ok] at hc
    obtain ⟨_, hread, rfl⟩ := hc
    obtain ⟨inner, hinner, rfl⟩ := decodeNode_eq_ok.1 hread
    obtain ⟨hold, hrests⟩ := ih (hK.component_mem ht (Ty.component_optional hs)) hinner
    refine decodeNode_restsOn rfl hold ?_
    rw [decode_optional_node hs h.ne_null.2]
    exact hrests.map fun n => Content.optional (some n)
  | @array t u location ds i d d' hs hd h ih =>
    rw [decode_array hs, Attempt.bind_pure_eq_ok] at hc
    obtain ⟨ns, hns, rfl⟩ := hc
    obtain ⟨hi, rfl⟩ := List.getElem?_eq_some_iff.1 hd
    have hitems := attemptElements_eq_ok.1 hns
    have hi' : i < ns.length := hitems.length_eq ▸ hi
    obtain ⟨inner, hinner, hn⟩ := decodeNode_eq_ok.1 (hitems.get hi hi')
    have hchild : ns[i]? = some ⟨u, inner⟩ := hn ▸ List.getElem?_eq_getElem hi'
    obtain ⟨hold, hrests⟩ := ih (hK.component_mem ht (Ty.component_array hs)) hinner
    refine decodeNode_restsOn hchild hold ?_
    rw [decode_array hs, attemptElements_eq_mapM, List.mapIdx_set]
    rw [attemptElements_eq_mapM] at hns
    exact ((hrests.under _).mapM_set hns (by simpa using hi)).map Content.array
  | @struct t base members location fields i m' d d' hs hm hd h ih =>
    obtain ⟨ns, hns, rfl⟩ := (decode_struct_eq_ok hs).1 hc
    obtain ⟨n, hn, hread⟩ := decodeMembers_get hns hm
    rw [hd, decodeMember, Attempt.under_eq_ok] at hread
    obtain ⟨inner, hinner, rfl⟩ := decodeNode_eq_ok.1 hread
    obtain ⟨hold, hrests⟩ := ih (hK.component_mem ht (Ty.component_struct hs (List.mem_of_getElem? hm))) hinner
    refine decodeNode_restsOn hn hold (decode_struct_restsOn hs (hnames ht hs) hns hm
      (fun key hkey => Field.get?_insert_of_ne hkey d') ?_)
    rw [Field.get?_insert_self]
    exact hrests.under _
  | @variant t u us location fields i d d' hs hd hu h ih =>
    rw [decode_variant_node hs hd hu, Attempt.bind_pure_eq_ok] at hc
    obtain ⟨_, hread, rfl⟩ := hc
    obtain ⟨inner, hinner, rfl⟩ := decodeNode_eq_ok.1 hread
    have hmem := Ty.component_variant hs (List.mem_of_getElem? hu)
    obtain ⟨hold, hrests⟩ := ih (hK.component_mem ht hmem) hinner
    refine decodeNode_restsOn rfl hold ?_
    rw [decode_variant_node hs (variantFields_insert hd d') hu]
    exact hrests.map (Content.variant i)

theorem Member.defaultNode_eq_ok {m : Member} {n : Node Ty} : m.defaultNode = .ok n ↔
    m.default = some n ∨ m.default = none ∧ ∃ e, defaultContent m.type = .ok e ∧ ⟨m.type, e⟩ = n := by
  rw [Member.defaultNode]
  cases m.default with
  | some declared => simp
  | none =>
    rw [Except.bind_pure_eq_ok]
    simp

/-- A document is read or refused, and breaks no rule. -/
theorem decode_ne_panic (t : Ty) (d : Document) (p : Policy) (e : Error) :
    ((decode t d).run p).outcome ≠ .panic e := by
  have hcandid : (decode t d).Candid (.staging [] False) := decode_candid t d
  rw [decode_run t d p .report]
  exact hcandid.reports e

namespace Session

/-- Documents that are the same for a type are refused with one error, or read alike. What is read of a document is
read of it without the key of a member as well, but for the default in the place of the member. It is refused then
if and only if the member has no default, neither a declared one nor that of its type. -/
theorem decode_known_keys {s : Session} (hs : s.Reachable) {t : Ty} (ht : s.Knows t) (p : Policy) :
    (∀ d d', Document.SameFor t d d' →
      (∃ e, ((decode t d).run p).outcome = .error e ∧ ((decode t d').run p).outcome = .error e) ∨
      ∃ c c', ((decode t d).run p).outcome = .ok c ∧ ((decode t d').run p).outcome = .ok c' ∧
        c.equals c' = true) ∧
    ∀ m location d d' c, Document.Without m t location d d' → ((decode t d).run p).outcome = .ok c →
      (∃ old, (⟨t, c⟩ : Node Ty).get? location = some old) ∧
      (∀ n, m.default = some n →
        ((decode t d').run p).outcome = .ok ((⟨t, c⟩ : Node Ty).set location n).content) ∧
      (∀ e, m.default = none → defaultContent m.type = .ok e →
        ((decode t d').run p).outcome = .ok ((⟨t, c⟩ : Node Ty).set location ⟨m.type, e⟩).content) ∧
      ((∃ e, ((decode t d').run p).outcome = .error e) ↔
        m.default = none ∧ ∀ e, defaultContent m.type ≠ .ok e) := by
  obtain ⟨K, hK⟩ := hs.invariant
  have hknown := hK.sound.knows ht
  refine ⟨fun d d' h => ?_, fun m location d d' c h hc => ?_⟩
  · have hsame := decode_sameFor t h p
    rw [← hsame]
    cases hd : ((decode t d).run p).outcome with
    | ok c =>
      exact .inr ⟨c, c, rfl, rfl, (decode_typed hK.sound.catalog hknown d p c hd).fits.equals_self⟩
    | error e => exact .inl ⟨e, rfl, rfl⟩
    | panic e => exact absurd hd (decode_ne_panic t d p e)
  · obtain ⟨hold, hrests⟩ := decode_without hK.sound.catalog h hknown hc
    have gives {n : Node Ty} (hn : m.defaultNode = .ok n) :
        ((decode t d').run p).outcome = .ok ((⟨t, c⟩ : Node Ty).set location n).content := by
      obtain ⟨c', hc', hset⟩ := decodeNode_eq_ok.1 (hrests.ok hn)
      rw [hc', ← hset]
    refine ⟨hold, fun n hn => gives (Member.defaultNode_eq_ok.2 (.inl hn)),
      fun e hn he => gives (Member.defaultNode_eq_ok.2 (.inr ⟨hn, e, he, rfl⟩)), ?_⟩
    simp only [← decodeNode_eq_error, hrests.fails_iff, ne_eq, Member.defaultNode_eq_ok]
    constructor
    · intro h
      have hnone : m.default = none := Option.eq_none_iff_forall_ne_some.2 fun n hn => h n (.inl hn)
      exact ⟨hnone, fun e he => h _ (.inr ⟨hnone, e, he, rfl⟩)⟩
    · rintro ⟨hnone, hdefault⟩ n (hn | ⟨-, e, he, -⟩)
      · cases hnone.symm.trans hn
      · exact hdefault e he

/-- A badge has a tint, which has no default, and a flag. -/
def badge : Definition :=
  let path (name : String) : Path := .child (.child .root "badge") name
  { Definition.fresh "badge" (.struct none []) with
    shape := .struct none [⟨⟨"hue", none, path "hue"⟩, tintType, none⟩,
      ⟨⟨"on", none, path "on"⟩, boolType, none⟩] }

def badgeType : Ty := badge.withIdentity (lit.nextIdentity + 1)

def badged : Session := ((sealType "badge" badge "badge").run tinted).1

theorem badged_reachable : badged.Reachable := by
  have hempty : lit.Builds (.fresh "tint" (.enum .empty)) := .fresh "tint" rfl
  have htinted : tinted.Reachable := lit_reachable.sealType (hempty.item (i := ⟨"warm", 0, none⟩) rfl) "tint"
  have hbool : tinted.space.type? 0 = some boolType := by rfl
  have htint : tinted.types.get? "tint" = some tintType := by rfl
  have hfresh : tinted.Builds (.fresh "badge" (.struct none [])) := .fresh "badge" ⟨rfl, rfl⟩
  have hhue : Member.declare "hue" tintType none = .ok ⟨.detached "hue", tintType, none⟩ := rfl
  have hon : Member.declare "on" boolType none = .ok ⟨.detached "on", boolType, none⟩ := rfl
  have hbuilds := hfresh.member (.kept htint) (fun v hv => by cases hv) hhue rfl
  exact htinted.sealType (hbuilds.member (.registered hbool) (fun v hv => by cases hv) hon rfl) "badge"

def hue : Field := ⟨"hue", .text "warm"⟩

def on : Field := ⟨"on", .bool true⟩

/-- A warm badge that is on is read in any order and with a size, which it does not have. Without the flag it is
off, and without the tint it is refused. -/
theorem decode_known_keys_badged : badged.Reachable ∧ badged.Knows badgeType ∧
    Document.SameFor badgeType (.object [hue, on]) (.object [on, hue]) ∧
    Document.SameFor badgeType (.object [hue, on]) (.object [⟨"size", .int 3⟩, hue, on]) ∧
    ((decode badgeType (.object [hue, on])).run .report).outcome =
      .ok (.struct [⟨tintType, .item 0⟩, ⟨boolType, .bool true⟩]) ∧
    (∃ c, ((decode badgeType (.object [on, hue])).run .report).outcome = .ok c) ∧
    ((decode badgeType (.object [hue])).run .report).outcome =
      .ok (.struct [⟨tintType, .item 0⟩, ⟨boolType, .bool false⟩]) ∧
    ∃ e, ((decode badgeType (.object [on])).run .report).outcome = .error e := by
  have hbadge : badged.types.get? "badge" = some badgeType := by rfl
  have hread : ((decode badgeType (.object [hue, on])).run .report).outcome =
      .ok (.struct [⟨tintType, .item 0⟩, ⟨boolType, .bool true⟩]) := by rfl
  have hturned : Document.SameFor badgeType (.object [hue, on]) (.object [on, hue]) :=
    .reordered (.of_perm (.swap ..) (by decide))
  obtain ⟨hsame, homits⟩ := decode_known_keys badged_reachable (.kept hbadge) .report
  refine ⟨badged_reachable, .kept hbadge, hturned, .of_extra rfl (by decide) _, hread, ?_, ?_, ?_⟩
  · rcases hsame _ _ hturned with ⟨e, he, -⟩ | ⟨c, c', -, hc', -⟩
    · cases hread.symm.trans he
    · exact ⟨c', hc'⟩
  · exact (homits _ _ _ _ _ (.here rfl (i := 1) rfl) hread).2.2.1 _ rfl rfl
  · exact (homits _ _ _ _ _ (.here rfl (i := 0) rfl) hread).2.2.2.2 ⟨rfl, nofun⟩

end Session

end TypedValues
