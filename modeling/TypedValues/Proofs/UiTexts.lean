import TypedValues.Proofs.Contract
import TypedValues.Proofs.Ranges
import TypedValues.Proofs.RoundTrip
import TypedValues.Proofs.Selection
import TypedValues.Proofs.Selectors

/-! Texts for people. The text of a boolean, of integers or of a string is read back as the same content: no
comma is inside a number, so cutting at the commas and trimming undoes the joining, and strings are taken as
they are. -/

namespace TypedValues

namespace Text

theorem pieces_of_not_mem {separator : Char} {cs : List Char} (h : separator ∉ cs) :
    pieces separator cs = [cs] := by
  induction cs with
  | nil => rfl
  | cons c cs ih =>
    rw [List.mem_cons, not_or] at h
    rw [pieces, if_neg fun heq => h.1 heq.symm, ih h.2]
    rfl

theorem pieces_append {separator : Char} {cs : List Char} (h : separator ∉ cs) (rest : List Char) :
    pieces separator (cs ++ separator :: rest) = cs :: pieces separator rest := by
  induction cs with
  | nil => rw [List.nil_append, pieces, if_pos rfl]
  | cons c cs ih =>
    rw [List.mem_cons, not_or] at h
    rw [List.cons_append, pieces, if_neg fun heq => h.1 heq.symm, ih h.2]
    rfl

theorem trim_cons {c : Char} (h : isBlank c = true) (cs : List Char) : trim (c :: cs) = trim cs := by
  rw [trim_eq, trim_eq, List.dropWhile_cons, if_pos h]

end Text

namespace Reading

/-- An integer as it is written: the digits of a number, behind a minus sign if it is negative. -/
theorem toList_toString (z : Int) : (toString z).toList =
    if z < 0 then '-' :: (toString z.natAbs).toList else (toString z.natAbs).toList := by
  cases z with
  | ofNat n => rfl
  | negSucc n =>
    have htext : toString (Int.negSucc n) = "-" ++ toString (n + 1) := rfl
    rw [htext, String.toList_append, if_pos (Int.negSucc_lt_zero n)]
    rfl

theorem digits?_toString (n : Nat) : digits? (toString n).toList = some n := by
  rw [digits?_eq_some]
  refine ⟨?_, digits_of_toString, ?_⟩
  · rw [Nat.toString_eq_repr, Nat.toList_repr]
    exact Nat.toDigits_ne_nil
  · rw [Nat.toString_eq_repr, Nat.toList_repr, Nat.ofDigitChars_ten_toDigits]

theorem signed_of_digits {cs : List Char} (h : ∀ c ∈ cs, c.isDigit = true) : signed cs = (false, cs) := by
  unfold signed
  split
  · exact absurd (h '-' List.mem_cons_self) (by decide)
  · exact absurd (h '+' List.mem_cons_self) (by decide)
  · rfl

theorem integer?_of_signed {cs rest : List Char} {negative : Bool} {n : Nat} {z : Int}
    (hsigned : signed cs = (negative, rest)) (hdigits : digits? rest = some n)
    (hz : (if negative then -(n : Int) else n) = z) (h : -twoTo 127 ≤ z ∧ z < twoTo 127) :
    integer? cs = some z := by
  unfold integer?
  rw [hsigned]
  simp only [hdigits, hz]
  exact if_pos h

/-- An integer of 128 bits is read back from its text. -/
theorem integer?_toString {z : Int} (h : -twoTo 127 ≤ z ∧ z < twoTo 127) :
    integer? (toString z).toList = some z := by
  rw [toList_toString]
  by_cases hneg : z < 0
  · rw [if_pos hneg]
    have hsigned : signed ('-' :: (toString z.natAbs).toList) = (true, (toString z.natAbs).toList) := rfl
    apply integer?_of_signed hsigned (digits?_toString _) ?_ h
    simp only [if_true]
    omega
  · rw [if_neg hneg]
    apply integer?_of_signed (signed_of_digits digits_of_toString) (digits?_toString _) ?_ h
    simp only [Bool.false_eq_true, if_false]
    omega

theorem integer_chars (z : Int) : ∀ c ∈ (toString z).toList, c ≠ ',' ∧ Text.isBlank c = false := by
  have digit {n : Nat} {c : Char} (hc : c ∈ (toString n).toList) : c ≠ ',' ∧ Text.isBlank c = false := by
    have hdigit := digits_of_toString c hc
    refine ⟨?_, not_blank_of_isDigit hdigit⟩
    rintro rfl
    exact absurd hdigit (by decide)
  intro c hc
  rw [toList_toString] at hc
  split at hc
  · rcases List.mem_cons.1 hc with rfl | hc
    · decide
    · exact digit hc
  · exact digit hc

end Reading

namespace UiText

/-- Each part after the first stands behind a blank. -/
theorem pieces_joined {p : String} {ps : List String} (h : ∀ q ∈ p :: ps, ',' ∉ q.toList) :
    Text.pieces ',' (joined (p :: ps)).toList = p.toList :: ps.map fun q => ' ' :: q.toList := by
  induction ps generalizing p with
  | nil =>
    rw [List.forall_mem_singleton] at h
    rw [joined, String.intercalate_singleton, Text.pieces_of_not_mem h]
    rfl
  | cons q ps ih =>
    rw [List.forall_mem_cons] at h
    have hsep : (", " : String).toList = [',', ' '] := rfl
    have hjoined : (joined (p :: q :: ps)).toList = p.toList ++ ',' :: ' ' :: (joined (q :: ps)).toList := by
      rw [joined, String.intercalate_cons_cons, String.toList_append, String.toList_append, hsep,
        List.append_assoc]
      rfl
    rw [hjoined, Text.pieces_append h.1, Text.pieces, if_neg (by decide), ih h.2]
    rfl

theorem readParts_of_forall₂ {t : Ty} {wanted : TextSort} {read? : List Char → Option Literal}
    {parts : List (List Char)} {ls : List Literal}
    (h : List.Forall₂ (fun part l => read? (Text.trim part) = some l) parts ls) :
    readParts t wanted read? parts = .ok ls := by
  induction h with
  | nil => rfl
  | cons hread _ ih =>
    simp only [readParts, hread, ih]
    rfl

/-- Parts without commas in them and blanks around them are read from the text that joins them. -/
theorem readNumbers_joined {t : Ty} {n : Nat} {wanted : TextSort} {read? : List Char → Option Literal}
    {parts : List String} {ls : List Literal} (hne : parts ≠ [])
    (hplain : ∀ p ∈ parts, ',' ∉ p.toList ∧ Text.Tight p.toList)
    (hread : List.Forall₂ (fun p l => read? p.toList = some l) parts ls) :
    readNumbers t n wanted read? (joined parts) = stageLiteral t (components n ls) := by
  cases hread with
  | nil => exact absurd rfl hne
  | @cons p l ps ls hp hps =>
    rw [List.forall_mem_cons] at hplain
    have hpieces := pieces_joined (List.forall_mem_cons.2 ⟨hplain.1.1, fun q hq => (hplain.2 q hq).1⟩)
    have hrest : List.Forall₂ (fun part l => read? (Text.trim part) = some l)
        (ps.map fun q => ' ' :: q.toList) ls := by
      rw [List.forall₂_map_left_iff]
      refine ((List.forall₂_and_left _ _).2 ⟨hplain.2, hps⟩).imp fun q l h => ?_
      rw [Text.trim_cons (by decide), h.1.2.trim]
      exact h.2
    have hfirst : read? (Text.trim p.toList) = some l := by
      rw [hplain.1.2.trim]
      exact hp
    rw [readNumbers, hpieces, readParts_of_forall₂ (.cons hfirst hrest)]
    rfl

theorem wide_of_contains {kind : IntKind} {z : Int} (h : kind.contains z = true) :
    -twoTo 127 ≤ z ∧ z < twoTo 127 := by
  have htwo : (twoTo 127 : Int) = 2 ^ 127 := rfl
  rw [htwo]
  simp only [IntKind.contains, Bool.and_eq_true, decide_eq_true_eq] at h
  cases kind <;> simp only [IntKind.bounds] at h <;> omega

theorem read_integral {t : Ty} {kind : IntKind} {n : Nat} (hs : t.shape = .integral kind n) (text : String) :
    read t text = readNumbers t n .integer (fun cs => (Reading.integer? cs).map .int) text := by
  rw [read, hs]

/-- Integers in the range of the type are read back from their text. -/
theorem read_ints {t : Ty} {kind : IntKind} {n : Nat} (hs : t.shape = .integral kind n) {zs : List Int}
    (hlength : zs.length = n) (hn : 1 ≤ n) (hbounds : ∀ z ∈ zs, kind.contains z = true)
    (hrange : t.InRange zs) : read t (joined (zs.map toString)) = .ok (.ints zs) := by
  have hne : zs.map toString ≠ [] := by
    rintro heq
    rw [List.map_eq_nil_iff.1 heq] at hlength
    simp at hlength
    omega
  have hplain : ∀ p ∈ zs.map toString, ',' ∉ p.toList ∧ Text.Tight p.toList := by
    intro p hp
    obtain ⟨z, -, rfl⟩ := List.mem_map.1 hp
    exact ⟨fun hmem => (Reading.integer_chars z ',' hmem).1 rfl,
      Text.tight_of_not_blank fun c hc => (Reading.integer_chars z c hc).2⟩
  have hread : List.Forall₂ (fun (p : String) l => (Reading.integer? p.toList).map Literal.int = some l)
      (zs.map toString) (zs.map .int) := by
    rw [List.forall₂_map_left_iff, List.forall₂_map_right_iff, List.forall₂_same]
    intro z hz
    rw [Reading.integer?_toString (wide_of_contains (hbounds z hz))]
    rfl
  have hcomponent : ∀ z ∈ zs, intComponent t (.int z) = .ok (id z) := by
    obtain ⟨lo, hi, hrange, hwithin⟩ := hrange
    intro z hz
    rw [intComponent, hrange]
    exact if_pos (hwithin z hz)
  rw [read_integral hs, readNumbers_joined hne hplain hread, stageLiteral_integral hs,
    componentsOf_components hlength hn hcomponent, List.map_id]
  rfl

theorem inRange_of_read {t : Ty} {kind : IntKind} {n : Nat} (hs : t.shape = .integral kind n) {text : String}
    {zs : List Int} (h : read t text = .ok (.ints zs)) : t.InRange zs := by
  rw [read_integral hs, readNumbers] at h
  obtain ⟨parts, -, h⟩ := Except.bind_eq_ok.1 h
  rw [stageLiteral_integral hs] at h
  obtain ⟨zs', hzs, heq⟩ := Except.bind_pure_eq_ok.1 h
  cases heq
  have hrange := Definition.intRange?_of_shape (d := t.definition) hs
  obtain ⟨-, hcomponent⟩ := componentsOf_eq_ok hzs
  refine ⟨_, _, hrange, fun z hz => ?_⟩
  obtain ⟨l, hl⟩ := hcomponent z hz
  exact intComponent_bounds hrange hl

/-- The types whose texts lose nothing. -/
def Exact (t : Ty) : Prop := t.kind = .bool ∨ t.kind = .integral ∨ t.kind = .string

/-- The text of content of such a type is read back as the same content. -/
theorem read_write {t : Ty} (ht : Exact t) {c : Content Ty} (hc : c.Fits t)
    (hrange : ∀ zs, c = .ints zs → t.InRange zs) : ∃ text, write t c = .ok text ∧ read t text = .ok c := by
  cases hc with
  | @bool _ b shape =>
    refine ⟨if b then "true" else "false", rfl, ?_⟩
    rw [read, shape]
    cases b <;> rfl
  | @ints _ kind n zs shape length count bounds =>
    exact ⟨_, rfl, read_ints shape length count.1 bounds (hrange zs rfl)⟩
  | @text _ s shape => exact ⟨s, rfl, by rw [read, shape]⟩
  | reals shape | item shape | empty shape | some shape | variant shape | struct shape | array shape =>
    simp [Exact, Ty.kind, Shape.kind, shape] at ht

theorem relabel_eq_of_equals {α β : Type} [HasType α] {t : Ty} (ht : Exact t) {c : Content α} (hc : c.Fits t)
    {d : Content β} (h : c.equals d = true) (f : α → β) : c.relabel f = d := by
  cases hc with
  | bool | ints | text =>
    cases d <;> simp_all [Content.equals, Content.relabel]
  | reals shape | item shape | empty shape | some shape | variant shape | struct shape | array shape =>
    simp [Exact, Ty.kind, Shape.kind, shape] at ht

end UiText

namespace Session

variable {s : Session} {K : Set Ty} {label : String} {walk : List Access} {location : Location}

/-- The part shows the text. Read back, the text leaves the part as it is and calls no observer, and it makes
any other value of the type equal to the part. -/
structure Retold (s : Session) (label : String) (walk : List Access) (v : Value) (text : String) : Prop where
  shown : ((inspect label walk .uiText).run s).2.outcome = .ok text
  accepted : ((change label walk (.parseUi text)).run s).2.outcome = .ok none
  quiet : called ((change label walk (.parseUi text)).run s).2.trace = []
  unchanged : ∀ other, ((change label walk (.parseUi text)).run s).1.values.get? other = s.values.get? other
  carries : ∀ label' walk' location w, s.Reaches label' walk' location w → w.isConstructed = true →
    w.type = v.type → ((change label' walk' (.parseUi text)).run s).2.outcome = .ok none ∧
      ∃ w', ((change label' walk' (.parseUi text)).run s).1.Reaches label' walk' location w' ∧
        w'.label = w.label ∧ (w'.isEqual v).Gives true

theorem outcome_uiText {v : Value} {c : Content Cell} (hv : s.Reaches label walk location v)
    (hc : v.content = some c) {text : String}
    (hwrite : UiText.write v.type (c.relabel HasType.type) = .ok text) :
    ((inspect label walk .uiText).run s).2.outcome = .ok text := by
  obtain ⟨root, hroot, hreach⟩ := hv
  have hfollow : ((root.followAll walk).run s.policy).outcome = .ok v := by
    rw [Holder.followAll_eq_reachAll, map_eq_pure_bind, Attempt.bind_pure_eq_ok]
    exact ⟨_, hreach, rfl⟩
  have hsnapshot : v.snapshot.constructed = pure (c.relabel HasType.type) := by
    rw [Holder.snapshot, hc]
    rfl
  rw [run_inspect hroot, Attempt.bind_eq_ok]
  refine ⟨v, hfollow, Result.mapError_eq_ok.2 ?_⟩
  rw [Query.ask, hsnapshot, pure_bind, Attempt.run_ofExcept, Attempt.ofExcept_eq_ok]
  exact hwrite

theorem stageChange_parseUi {α : Type} [HasType α] {m : Node α} {text : String} {p : Policy}
    {r : Edit × Option Nat} : ((m.holder.stageChange (.parseUi text)).run p).outcome = .ok r ↔
      ∃ d, UiText.read m.type text = .ok d ∧ r = (.replace d, none) := by
  have hparse : m.holder.stageChange (.parseUi text) =
      (do return (.replace (← UiText.read m.type text), none)) := rfl
  rw [hparse, Attempt.bind_eq_ok]
  simp only [Attempt.run_ofExcept, Attempt.ofExcept_eq_ok, Attempt.run_pure, Outcome.ok.injEq]
  exact exists_congr fun d => and_congr_right fun _ => eq_comm

theorem parseUi_run (h : s.Invariant K) {w : Value} (hw : s.Reaches label walk location w) {c : Content Cell}
    (hc : w.content = some c) {text : String} {d : Content Ty} (hread : UiText.read w.type text = .ok d) :
    ((change label walk (.parseUi text)).run s).2.outcome = .ok none ∧
      ∃ after : Content Cell, after.equals d = true ∧
        ((change label walk (.parseUi text)).run s).1.Reaches label walk location ⟨w.label, some after⟩ ∧
        (c.equals d = true → called ((change label walk (.parseUi text)).run s).2.trace = [] ∧
          ∀ other, ((change label walk (.parseUi text)).run s).1.values.get? other = s.values.get? other) := by
  have htype := (h.typed_of_reaches hw).type
  obtain ⟨n, m, rfl, hroot, hreach⟩ := hw.node (Option.isSome_iff_exists.2 ⟨c, hc⟩)
  cases hc
  obtain ⟨hok, after, hequal, hget, hvalues, hpolicy, hstays⟩ :=
    replace_run h hroot hreach (stageChange_parseUi.2 ⟨d, hread, rfl⟩) (read_typed h.sound.catalog htype hread)
  refine ⟨hok, after, hequal, ⟨(n.set location ⟨m.label, after⟩).holder, ?_, ?_⟩, fun hsame => ?_⟩
  · rw [hvalues, Table.get?_put, if_pos rfl]
  · rw [hpolicy]
    exact Holder.reachAll_set hreach rfl
  · obtain ⟨rfl, hquiet⟩ := hstays hsame
    refine ⟨hquiet, fun other => ?_⟩
    have hself : n.set location ⟨m.label, m.content⟩ = n := by
      rcases m with ⟨l, content⟩
      exact Node.set_get? hget
    rw [hvalues, hself, Table.get?_put]
    split
    next heq => rw [← heq, hroot]
    next => rfl

/-- A text that is read as the content it was written for is as good as the value. -/
theorem retold_of_read (h : s.Invariant K) {v : Value} (hv : s.Reaches label walk location v)
    {c : Content Cell} (hc : v.content = some c) {text : String} {d : Content Ty}
    (hwrite : UiText.write v.type (c.relabel HasType.type) = .ok text)
    (hread : UiText.read v.type text = .ok d) (hequal : c.equals d = true) : s.Retold label walk v text := by
  obtain ⟨hok, after, -, -, hstays⟩ := parseUi_run h hv hc hread
  obtain ⟨hquiet, hvalues⟩ := hstays hequal
  refine ⟨outcome_uiText hv hc hwrite, hok, hquiet, hvalues, fun label' walk' location' w hw hconstructed htype => ?_⟩
  obtain ⟨e, he⟩ := Option.isSome_iff_exists.1 hconstructed
  rw [← htype] at hread
  obtain ⟨hok', after', hequal', hreaches, -⟩ := parseUi_run h hw he hread
  refine ⟨hok', _, hreaches, rfl, Holder.isEqual_gives_true.2 ⟨after', c, rfl, hc, ?_, ?_⟩⟩
  · have htype' : (⟨w.label, some after'⟩ : Value).type = v.type := htype
    rw [htype']
    exact Ty.compatible_refl _
  · exact Content.equals_trans hequal' (Content.equals_symm hequal)

/-- A text that is read retells the value exactly if what is read is equal to what the value holds. -/
theorem retold_iff (h : s.Invariant K) {v : Value} (hv : s.Reaches label walk location v) {c : Content Cell}
    (hc : v.content = some c) {text : String} {d : Content Ty}
    (hwrite : UiText.write v.type (c.relabel HasType.type) = .ok text)
    (hread : UiText.read v.type text = .ok d) : s.Retold label walk v text ↔ c.equals d = true := by
  refine ⟨fun hretold => ?_, retold_of_read h hv hc hwrite hread⟩
  obtain ⟨-, after, hafter, hreaches, -⟩ := parseUi_run h hv hc hread
  obtain ⟨-, w, hw, -, hequal⟩ := hretold.carries label walk location v hv (Option.isSome_iff_exists.2 ⟨c, hc⟩) rfl
  obtain ⟨c', d', hc', hd', -, hequal⟩ := Holder.isEqual_gives_true.1 hequal
  cases hreaches.inj hw
  cases hc'
  cases hc.symm.trans hd'
  exact Content.equals_trans (Content.equals_symm hequal) hafter

/-- A text that a part accepts is read by its type. -/
theorem read_of_accepted {v : Value} (hv : s.Reaches label walk location v) (hc : v.isConstructed = true)
    {text : String} {position : Option Nat}
    (hok : ((change label walk (.parseUi text)).run s).2.outcome = .ok position) :
    ∃ d, UiText.read v.type text = .ok d := by
  obtain ⟨n, m, rfl, hroot, hreach⟩ := hv.node hc
  obtain ⟨edit, hstage⟩ := staged_of_change hroot hreach hok
  obtain ⟨d, hread, -⟩ := stageChange_parseUi.1 hstage
  exact ⟨d, hread⟩

/-- Booleans, integers in the range of their type, and strings are told in full by their texts. And whatever
text is read as such a value, the value shows a text that is read as the same content. -/
theorem uiText_retold (hs : s.Reachable) {v : Value} (hv : s.Reaches label walk location v)
    (hc : v.isConstructed = true) (ht : UiText.Exact v.type) :
    ((∀ zs, v.content = some (.ints zs) → v.type.InRange zs) → ∃ text, s.Retold label walk v text) ∧
    ∀ text position, ((change label walk (.parseUi text)).run s).2.outcome = .ok position →
      ∃ shown w, UiText.read v.type shown = UiText.read v.type text ∧
        ((change label walk (.parseUi text)).run s).1.Reaches label walk location w ∧ w.label = v.label ∧
        ((change label walk (.parseUi text)).run s).1.Retold label walk w shown := by
  obtain ⟨K, hK⟩ := hs.invariant
  obtain ⟨c, hcontent⟩ := Option.isSome_iff_exists.1 hc
  have htyped := hK.typed_of_reaches hv
  constructor
  · intro hrange
    have hfits := htyped.content c hcontent
    have hints : ∀ zs, c.relabel HasType.type = .ints zs → v.type.InRange zs := by
      intro zs hzs
      refine hrange zs (hcontent.trans (congrArg some ?_))
      rcases c with _ | _ | _ | _ | _ | (_ | _) | _ | _ | _ <;> cases hzs
      rfl
    obtain ⟨text, hwrite, hread⟩ := UiText.read_write ht (Content.fits_relabel.2 hfits.fits) hints
    exact ⟨text, retold_of_read hK hv hcontent hwrite hread
      ((Content.equals_iff _ _).2 ⟨hfits.fits.nanFree, (Content.normal_relabel _ _).symm⟩)⟩
  · intro text position hok
    obtain ⟨d, hd⟩ := read_of_accepted hv hc hok
    have hfits := (read_typed hK.sound.catalog htyped.type hd).fits
    have hints : ∀ zs, d = .ints zs → v.type.InRange zs := by
      rintro zs rfl
      cases hfits with
      | ints shape => exact UiText.inRange_of_read shape hd
    obtain ⟨shown, hwrite, hread⟩ := UiText.read_write ht hfits hints
    obtain ⟨-, after, hequal, hreaches, -⟩ := parseUi_run hK hv hcontent hd
    have hadvances := change_advances hK (c := .parseUi text) (fun o ho => by cases ho) label walk
    have hafter := (hadvances.invariant.typed_of_reaches hreaches).content after rfl
    have hsame : after.relabel HasType.type = d := UiText.relabel_eq_of_equals ht hafter.fits hequal _
    refine ⟨shown, _, hread.trans hd.symm, hreaches, rfl, ?_⟩
    exact retold_of_read hadvances.invariant hreaches rfl (hsame.symm ▸ hwrite) hread hequal

/-- Two offsets of three small integers each. -/
def offset : Definition := .fresh "offset" (.integral .int16 3)

def offsetType : Ty := offset.withIdentity Namespace.builtins.length

def nearOffset : Value := ⟨⟨offsetType, 0⟩, some (.ints [1, -2, 3])⟩

def offsets : Session :=
  let known := ((sealType "offset" offset "offset").run initial).1
  let near := ((change "near" [] (.construct [⟨none, .operand (.literal (.list [.int 1, .int (-2), .int 3]))⟩])).run
    (known.create "near" offsetType)).1
  ((change "far" [] (.construct [])).run (near.create "far" offsetType)).1

theorem offsets_reachable : offsets.Reachable := by
  have hoffset : initial.Builds offset := .fresh "offset" rfl
  have hknown := Reachable.sealType Relation.ReflTransGen.refl hoffset "offset"
  have known {s : Session} (h : s.types.get? "offset" = some offsetType) : s.Knows offsetType := .kept h
  have hnear := hknown.make (known rfl) "near"
    (.construct [⟨none, .operand (.literal (.list [.int 1, .int (-2), .int 3]))⟩]) fun o ho => by
      obtain rfl := List.mem_singleton.1 ho
      trivial
  exact hnear.make (known rfl) "far" (.construct []) fun o ho => by cases ho

/-- The near offset is told as a list, and a list with blanks elsewhere is accepted too. -/
theorem uiText_retold_offsets : offsets.Reachable ∧ offsets.Reaches "near" [] [] nearOffset ∧
    offsetType.InRange [1, -2, 3] ∧ offsets.Retold "near" [] nearOffset "1, -2, 3" ∧
    ((change "near" [] (.parseUi " 4,5 , 6")).run offsets).2.outcome = .ok none ∧
    ∃ shown w, UiText.read offsetType shown = UiText.read offsetType " 4,5 , 6" ∧
      ((change "near" [] (.parseUi " 4,5 , 6")).run offsets).1.Retold "near" [] w shown := by
  have hnear : offsets.Reaches "near" [] [] nearOffset := ⟨_, by rfl, by rfl⟩
  have hrange : offsetType.InRange [1, -2, 3] := ⟨-32768, 32767, by rfl, by decide⟩
  have hok : ((change "near" [] (.parseUi " 4,5 , 6")).run offsets).2.outcome = .ok none := by rfl
  obtain ⟨htold, hagain⟩ := uiText_retold offsets_reachable hnear rfl (.inr (.inl rfl))
  obtain ⟨text, hretold⟩ := htold fun zs hzs => by cases hzs; exact hrange
  have hshown : ((inspect "near" [] .uiText).run offsets).2.outcome = .ok "1, -2, 3" := by rfl
  obtain rfl : text = "1, -2, 3" := Outcome.ok.inj (hretold.shown.symm.trans hshown)
  obtain ⟨shown, w, hread, -, -, hw⟩ := hagain " 4,5 , 6" none hok
  exact ⟨offsets_reachable, hnear, hrange, hretold, hok, shown, w, hread, hw⟩

end Session

end TypedValues
