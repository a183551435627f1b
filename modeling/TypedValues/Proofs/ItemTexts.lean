import TypedValues.Proofs.UiTexts

/-! Texts of enum items. An item is shown by its UI name, which nothing keeps apart from the names and UI names
of the other items. A text is looked up among the names first, so an item is read back from its text only where
no other item is found before it. -/

namespace TypedValues

namespace EnumDef

variable {d : EnumDef} {text : String} {i j : Nat}

theorem find?_eq_none : d.find? text = none ↔ ∀ item ∈ d.items, item.name ≠ text := by
  simp [find?, List.findIdx?_eq_none_iff]

/-- Names are different, so the item of a name is found wherever it stands. -/
theorem find?_eq_some (hd : d.Valid) :
    d.find? text = some i ↔ ∃ item, d.items[i]? = some item ∧ item.name = text := by
  constructor
  · intro h
    obtain ⟨hlt, hname, -⟩ := List.findIdx?_eq_some_iff_getElem.1 h
    exact ⟨d.items[i], List.getElem?_eq_getElem hlt, eq_of_beq hname⟩
  · rintro ⟨item, hi, rfl⟩
    exact findIdx?_of_nodup hd.names hi

/-- The item at `i` is the first that is shown by the text. -/
structure FirstShown (d : EnumDef) (text : String) (i : Nat) : Prop where
  shown : ∃ item, d.items[i]? = some item ∧ item.shownName = text
  first : ∀ j < i, ∀ item, d.items[j]? = some item → item.shownName ≠ text

theorem findIdx?_shownName :
    d.items.findIdx? (·.shownName == text) = some i ↔ d.FirstShown text i := by
  rw [List.findIdx?_eq_some_iff_getElem]
  constructor
  · rintro ⟨hlt, hshown, hfirst⟩
    refine ⟨⟨d.items[i], List.getElem?_eq_getElem hlt, eq_of_beq hshown⟩, fun j hj item hitem hother => ?_⟩
    obtain ⟨hlt', rfl⟩ := List.getElem?_eq_some_iff.1 hitem
    exact hfirst j hj (beq_iff_eq.2 hother)
  · rintro ⟨⟨item, hitem, hshown⟩, hfirst⟩
    obtain ⟨hlt, rfl⟩ := List.getElem?_eq_some_iff.1 hitem
    refine ⟨hlt, beq_iff_eq.2 hshown, fun j hj hother => ?_⟩
    have hlt' := hj.trans hlt
    exact hfirst j hj d.items[j] (List.getElem?_eq_getElem hlt') (eq_of_beq hother)

/-- The text stands for the item at `i`: it is the name of this item, or of none, and then this item is the
first that is shown by it. -/
inductive StandsFor (d : EnumDef) (text : String) (i : Nat) : Prop where
  | name {item : EnumItem} (found : d.items[i]? = some item) (named : item.name = text)
  | shown (unnamed : ∀ item ∈ d.items, item.name ≠ text) (first : d.FirstShown text i)

theorem findByAnyName?_eq_some (hd : d.Valid) : d.findByAnyName? text = some i ↔ d.StandsFor text i := by
  unfold findByAnyName?
  by_cases hnamed : d.find? text = none
  · rw [hnamed, Option.orElse_none, findIdx?_shownName]
    have hunnamed := find?_eq_none.1 hnamed
    constructor
    · exact fun h => .shown hunnamed h
    · rintro (⟨found, named⟩ | ⟨-, first⟩)
      · exact absurd named (hunnamed _ (List.mem_of_getElem? found))
      · exact first
  · obtain ⟨k, hk⟩ := Option.ne_none_iff_exists'.1 hnamed
    obtain ⟨item, hitem, hname⟩ := (find?_eq_some hd).1 hk
    rw [hk, Option.orElse_some, ← hk, find?_eq_some hd]
    constructor
    · rintro ⟨item, found, named⟩
      exact .name found named
    · rintro (⟨found, named⟩ | ⟨unnamed, -⟩)
      · exact ⟨_, found, named⟩
      · exact absurd hname (unnamed item (List.mem_of_getElem? hitem))

theorem exists_standsFor (hd : d.Valid) {item : EnumItem} (hitem : item ∈ d.items) :
    ∃ i, d.StandsFor item.shownName i := by
  simp only [← findByAnyName?_eq_some hd, ← Option.isSome_iff_exists]
  have hshown : (d.items.findIdx? (·.shownName == item.shownName)).isSome :=
    List.findIdx?_isSome.trans (List.any_eq_true.2 ⟨item, hitem, beq_self_eq_true _⟩)
  unfold findByAnyName?
  cases d.find? item.shownName with
  | none => exact hshown
  | some _ => rfl

end EnumDef

theorem Content.eq_item_of_equals {α β : Type} {c : Content α} {i : Nat}
    (h : c.equals (.item i : Content β) = true) : c = .item i := by
  rcases c with _ | _ | _ | _ | j | (_ | _) | _ | _ | _
  case item => rw [eq_of_beq h]
  all_goals cases h

namespace UiText

variable {t : Ty} {d : EnumDef}

theorem write_item (hs : t.shape = .enum d) {i : Nat} {item : EnumItem} (hi : d.items[i]? = some item) :
    write t (.item i) = .ok item.shownName := by
  simp only [write, hs, hi]

/-- A text is read as the item that it stands for without the blanks around it. -/
theorem read_enum (hs : t.shape = .enum d) (hd : d.Valid) {text : String} {c : Content Ty} :
    read t text = .ok c ↔
      ∃ i, d.StandsFor (String.ofList (Text.trim text.toList)) i ∧ c = .item i := by
  simp only [← EnumDef.findByAnyName?_eq_some hd, read, hs, readItem]
  split
  next i hi => simp only [hi, Except.ok.injEq, Option.some.injEq, exists_eq_left', eq_comm]
  next hnone => simp only [hnone, reduceCtorEq, false_and, exists_false]

theorem read_item (hs : t.shape = .enum d) (hd : d.Valid) {text : String} (htight : Text.Tight text.toList)
    {i : Nat} (h : d.StandsFor text i) : read t text = .ok (.item i) := by
  have htrim : String.ofList (Text.trim text.toList) = text := by rw [htight.trim, String.ofList_toList]
  exact (read_enum hs hd).2 ⟨i, htrim.symm ▸ h, rfl⟩

end UiText

namespace Session

variable {s : Session} {label : String} {walk : List Access} {location : Location}

theorem Retold.not_moved {v : Value} {text : String} (h : s.Retold label walk v text)
    (hv : s.Reaches label walk location v) {w : Value}
    (hw : ((change label walk (.parseUi text)).run s).1.Reaches label walk location w) : w = v := by
  obtain ⟨root, hroot, hreach⟩ := hv
  obtain ⟨root', hroot', hreach'⟩ := hw
  obtain rfl : root' = root := Option.some.inj (hroot'.symm.trans ((h.unchanged label).trans hroot))
  have hpart := Holder.reachAll_ensures _ _ _ _ hreach
  have hpart' := Holder.reachAll_ensures _ _ _ _ hreach'
  exact Option.some.inj (hpart'.symm.trans hpart)

/-- An item is shown by its UI name. If there are no blanks around this text, it is accepted and sets the item
that it stands for; so the item is kept exactly if the text stands for it. -/
theorem item_retold (hs : s.Reachable) {v : Value} (hv : s.Reaches label walk location v) {d : EnumDef}
    (hd : v.type.shape = .enum d) {i : Nat} (hc : v.content = some (.item i)) {item : EnumItem}
    (hi : d.items[i]? = some item) :
    ((inspect label walk .uiText).run s).2.outcome = .ok item.shownName ∧
    (Text.Tight item.shownName.toList →
      (∃ j, d.StandsFor item.shownName j ∧
        ((change label walk (.parseUi item.shownName)).run s).2.outcome = .ok none ∧
        ((change label walk (.parseUi item.shownName)).run s).1.Reaches label walk location
          ⟨v.label, some (.item j)⟩) ∧
      (s.Retold label walk v item.shownName ↔ d.StandsFor item.shownName i)) := by
  obtain ⟨K, hK⟩ := hs.invariant
  have hvalid : d.Valid := (hK.sound.catalog.valid _ (hK.typed_of_reaches hv).type).shape.items d hd
  have hwrite : UiText.write v.type ((Content.item i : Content Cell).relabel HasType.type) = .ok item.shownName :=
    UiText.write_item hd hi
  refine ⟨outcome_uiText hv hc hwrite, fun htight => ?_⟩
  obtain ⟨j, hj⟩ := EnumDef.exists_standsFor hvalid (List.mem_of_getElem? hi)
  obtain ⟨hok, after, hequal, hreaches, -⟩ := parseUi_run hK hv hc (UiText.read_item hd hvalid htight hj)
  obtain rfl := Content.eq_item_of_equals hequal
  refine ⟨⟨j, hj, hok, hreaches⟩, fun h => ?_, fun h => ?_⟩
  · have hsame := congrArg Holder.content (h.not_moved hv hreaches)
    rw [hc] at hsame
    cases hsame
    exact hj
  · exact retold_of_read hK hv hc hwrite (UiText.read_item hd hvalid htight h) (by simp [Content.equals])

/-- A dimmer is low, dim, high or off. A low one is shown as dim, which is the name of another item, and a blank ends
what shows that one is off. -/
def dimmer : Definition :=
  { Definition.fresh "dimmer" (.enum .empty) with
    shape := .enum ⟨[⟨"low", 0, some "dim"⟩, ⟨"dim", 1, none⟩, ⟨"high", 2, some "bright"⟩,
      ⟨"off", 3, some "dark "⟩], none⟩ }

def dimmerType : Ty := dimmer.withIdentity Namespace.builtins.length

def hallDimmer : Value := ⟨⟨dimmerType, 0⟩, some (.item 0)⟩

def deskDimmer : Value := ⟨⟨dimmerType, 1⟩, some (.item 2)⟩

def atticDimmer : Value := ⟨⟨dimmerType, 2⟩, some (.item 3)⟩

def dimmers : Session :=
  let known := ((sealType "dimmer" dimmer "dimmer").run initial).1
  let low := ((change "hall" [] (.construct [⟨none, .operand (.item ⟨dimmerType, 0⟩)⟩])).run
    (known.create "hall" dimmerType)).1
  let high := ((change "desk" [] (.construct [⟨none, .operand (.item ⟨dimmerType, 2⟩)⟩])).run
    (low.create "desk" dimmerType)).1
  let off := ((change "attic" [] (.construct [⟨none, .operand (.item ⟨dimmerType, 3⟩)⟩])).run
    (high.create "attic" dimmerType)).1
  off.subscribe hallDimmer "panel"

theorem dimmers_reachable : dimmers.Reachable := by
  have hempty : initial.Builds (.fresh "dimmer" (.enum .empty)) := .fresh "dimmer" rfl
  have hdimmer : initial.Builds dimmer :=
    (((hempty.item (i := ⟨"low", 0, some "dim"⟩) rfl).item (i := ⟨"dim", 1, none⟩) rfl).item
      (i := ⟨"high", 2, some "bright"⟩) rfl).item (i := ⟨"off", 3, some "dark "⟩) rfl
  have hknown := Reachable.sealType Relation.ReflTransGen.refl hdimmer "dimmer"
  have known {s : Session} (h : s.types.get? "dimmer" = some dimmerType) : s.Knows dimmerType := .kept h
  have offers {s : Session} (h : s.types.get? "dimmer" = some dimmerType) {r : ItemRef} (hr : r.type = dimmerType)
      (hitem : r.item?.isSome) : ∀ o ∈ (Change.construct [⟨none, .operand (.item r)⟩]).operands, s.Offers o := by
    intro o ho
    obtain rfl := List.mem_singleton.1 ho
    exact ⟨hr ▸ known h, hitem⟩
  have hlow := hknown.make (known rfl) "hall" (.construct [⟨none, .operand (.item ⟨dimmerType, 0⟩)⟩])
    (offers rfl rfl rfl)
  have hhigh := hlow.make (known rfl) "desk" (.construct [⟨none, .operand (.item ⟨dimmerType, 2⟩)⟩])
    (offers rfl rfl rfl)
  have hoff := hhigh.make (known rfl) "attic" (.construct [⟨none, .operand (.item ⟨dimmerType, 3⟩)⟩])
    (offers rfl rfl rfl)
  exact hoff.step (.subscribe ⟨"hall", hallDimmer, [], by rfl, by rfl⟩ "panel")

/-- A high dimmer is told by its UI name, a low one is not: its UI name stands for the dim one. -/
theorem item_retold_dimmers : dimmers.Reachable ∧
    dimmers.Reaches "desk" [] [] deskDimmer ∧ dimmers.Retold "desk" [] deskDimmer "bright" ∧
    dimmers.Reaches "hall" [] [] hallDimmer ∧ ¬ dimmers.Retold "hall" [] hallDimmer "dim" := by
  have hhigh : dimmers.Reaches "desk" [] [] deskDimmer := ⟨_, by rfl, by rfl⟩
  have hlow : dimmers.Reaches "hall" [] [] hallDimmer := ⟨_, by rfl, by rfl⟩
  have tight {text : String} (h : text.toList.all (!Text.isBlank ·)) : Text.Tight text.toList := by
    apply Text.tight_of_not_blank
    simpa using h
  obtain ⟨-, hbright⟩ := item_retold dimmers_reachable hhigh rfl rfl rfl
  obtain ⟨-, hdim⟩ := item_retold dimmers_reachable hlow rfl rfl rfl
  refine ⟨dimmers_reachable, hhigh, (hbright (tight (by decide))).2.2 (.shown (by decide) ?_), hlow, fun h => ?_⟩
  · refine ⟨⟨⟨"high", 2, some "bright"⟩, rfl, rfl⟩, ?_⟩
    decide
  · rcases (hdim (tight (by decide))).2.1 h with ⟨found, named⟩ | ⟨unnamed, -⟩
    · cases found
      exact absurd named (by decide)
    · exact unnamed ⟨"dim", 1, none⟩ (by decide) rfl

/-- Two dimmers whose texts are not read back. A low one is shown as dim, and this text sets another item and
calls the observer; and what shows that one is off is refused. -/
theorem item_misread : dimmers.Reachable ∧
    (dimmers.Reaches "hall" [] [] hallDimmer ∧
      ((inspect "hall" [] .uiText).run dimmers).2.outcome = .ok "dim" ∧
      ((change "hall" [] (.parseUi "dim")).run dimmers).2.outcome = .ok none ∧
      ((change "hall" [] (.parseUi "dim")).run dimmers).1.values.get? "hall" =
        some ⟨⟨dimmerType, 0⟩, some (.item 1)⟩ ∧
      (called ((change "hall" [] (.parseUi "dim")).run dimmers).2.trace).map (·.label) = ["panel"]) ∧
    dimmers.Reaches "attic" [] [] atticDimmer ∧
      ((inspect "attic" [] .uiText).run dimmers).2.outcome = .ok "dark " ∧
      ((change "attic" [] (.parseUi "dark ")).run dimmers).2.outcome =
        .error (.error (.dataAt dimmerType.path (.unknownItem "dark"))) :=
  ⟨dimmers_reachable, ⟨⟨_, by rfl, by rfl⟩, by rfl, by rfl, by rfl, by decide +kernel⟩, ⟨_, by rfl, by rfl⟩,
    by rfl, by rfl⟩

end Session

end TypedValues
