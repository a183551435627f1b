import TypedValues.Proofs.Locality
import Mathlib.Data.List.Induction

/-! Ancestry. The links of the signals mirror the trees of the values: each part has a signal of its own, whose parent
is the signal of the part right around it, and the signal of a value as a whole has no parent. So a walk up the
parents passes the parts around the one it starts from, each once, and ends at the value as a whole. -/

namespace TypedValues

/-- From a signal, the parents lead to `above`, the nearest first, and no further. -/
inductive Signals.Climbs (s : Signals) : SignalId → List SignalId → Prop where
  | top {id : SignalId} (h : s.parent? id = none) : Climbs s id []
  | up {id parent : SignalId} {above : List SignalId} (h : s.parent? id = some parent)
      (hrest : Climbs s parent above) : Climbs s id (parent :: above)

namespace Signals

variable {s : Signals} {id : SignalId}

theorem Climbs.iff_eq {above ids : List SignalId} (h : s.Climbs id above) : s.Climbs id ids ↔ ids = above := by
  refine ⟨fun h' => ?_, fun heq => heq ▸ h⟩
  induction h generalizing ids with
  | top hnone =>
    cases h' with
    | top => rfl
    | up hsome => cases hnone.symm.trans hsome
  | up hsome _ ih =>
    cases h' with
    | top hnone => cases hnone.symm.trans hsome
    | up hsome' hrest =>
      cases hsome.symm.trans hsome'
      rw [ih hrest]

end Signals

/-- The locations around a location, the innermost first. -/
def Location.around (location : Location) : List Location :=
  (List.range location.length).reverse.map location.take

theorem Location.around_snoc (location : Location) (i : Nat) :
    Location.around (location ++ [i]) = location :: Location.around location := by
  simp only [around, List.length_append, List.length_singleton, List.range_succ, List.reverse_append,
    List.reverse_singleton, List.singleton_append, List.map_cons, List.take_left]
  refine congrArg (location :: ·) (List.map_congr_left fun k hk => ?_)
  rw [List.mem_reverse, List.mem_range] at hk
  exact List.take_append_of_le_length hk.le

section

variable {α : Type}

/-- A part is inside of the part right around it. -/
theorem Holder.part?_snoc {v b : Holder α} {location : Location} {i : Nat}
    (h : v.part? (location ++ [i]) = some b) : ∃ n m : Node α,
      v.part? location = some n.holder ∧ b = m.holder ∧ m ∈ n.content.children := by
  rcases part?_cases h with ⟨hnil, -⟩ | ⟨root, m, rfl, rfl, hm⟩
  · simp at hnil
  · rw [Node.get?_append] at hm
    obtain ⟨n, hn, hm⟩ := Option.bind_eq_some_iff.1 hm
    obtain ⟨child, hchild, hm⟩ := Node.get?_cons_eq_some.1 hm
    cases hm
    refine ⟨n, m, ?_, rfl, List.mem_of_getElem? hchild⟩
    rw [Node.part?_holder, hn]
    rfl

end

/-- From `a`, the part of the value at the location, the parents lead through `above`: the parts around it, the
innermost first and the value as a whole last. -/
structure Signals.Ascends (s : Signals) (v : Value) (location : Location) (a : Value) (above : List Value) :
    Prop where
  parts : above.map some = (Location.around location).map v.part?
  climbs {ids : List SignalId} : s.Climbs a.label.signal ids ↔ ids = above.map (·.label.signal)
  ancestors : s.ancestors a.label.signal = above.map (·.label.signal)
  last : (a :: above).getLast? = some v

namespace Signals.Ascends

variable {s : Signals} {v a : Value} {location : Location} {above : List Value}

theorem once (h : s.Ascends v location a above) : ((a :: above).map (·.label.signal)).Nodup := by
  rw [List.map_cons, ← h.ancestors]
  exact List.nodup_cons.2 ⟨fun hmem => lt_irrefl _ (s.ancestors_lt _ _ hmem), s.ancestors_nodup _⟩

theorem calls (h : s.Ascends v location a above) :
    s.calls a.label.signal = (a :: above).flatMap fun x => s.observers x.label.signal := by
  rw [Signals.calls, h.ancestors, List.flatMap_cons, List.flatMap_map]

end Signals.Ascends

namespace Holder.Wired

variable {s : Signals} {v a b : Value} {location : Location}

theorem child (hv : v.Wired s) (ha : v.part? location = some a) {i : Nat}
    (hb : v.part? (location ++ [i]) = some b) :
    s.parent? b.label.signal = some a.label.signal := by
  obtain ⟨n, m, hn, rfl, hm⟩ := part?_snoc hb
  cases hn.symm.trans ha
  exact ((hv.below hn rfl).1 m hm).link

theorem ascends (hv : v.Wired s) (ha : v.part? location = some a) :
    ∃ above, s.Ascends v location a above := by
  -- from the value as a whole inwards: one step up from a part is the part right around it
  induction location using List.reverseRecOn generalizing a with
  | nil =>
    cases (part?_nil v).symm.trans ha
    exact ⟨[], rfl, (Signals.Climbs.top hv.root).iff_eq, by rw [Signals.ancestors, hv.root]; rfl, rfl⟩
  | append_singleton location i ih =>
    obtain ⟨n, m, hn, rfl, hm⟩ := part?_snoc ha
    obtain ⟨above, h⟩ := ih hn
    have hlinked := (hv.below hn rfl).1 m hm
    refine ⟨n.holder :: above, ?_, (Signals.Climbs.up hlinked.link (h.climbs.2 rfl)).iff_eq, ?_, ?_⟩
    · rw [Location.around_snoc, List.map_cons, List.map_cons, h.parts, hn]
    · rw [List.map_cons, ← h.ancestors]
      exact hlinked.ancestors
    · rw [List.getLast?_cons_cons]
      exact h.last

end Holder.Wired

namespace Session

/-- The links of the signals mirror the trees of the values. -/
structure Mirrors (s : Session) : Prop where
  bound {label : String} {location : Location} {a : Value} (ha : s.At label location a) :
    a.label.signal < s.signals.all.size
  root {label : String} {v : Value} (hv : s.values.get? label = some v) : s.signals.parent? v.label.signal = none
  child {label : String} {location : Location} {i : Nat} {a b : Value} (ha : s.At label location a)
    (hb : s.At label (location ++ [i]) b) : s.signals.parent? b.label.signal = some a.label.signal
  unique {label label' : String} {location location' : Location} {a b : Value} (ha : s.At label location a)
    (hb : s.At label' location' b) (heq : a.label.signal = b.label.signal) : label = label' ∧ location = location'
  ascent {label : String} {location : Location} {v a : Value} (hv : s.values.get? label = some v)
    (ha : v.part? location = some a) : ∃ above, s.signals.Ascends v location a above ∧
      ((a :: above).map (·.label.signal)).Nodup ∧
      s.signals.calls a.label.signal = (a :: above).flatMap fun x => s.signals.observers x.label.signal

/-- Whatever was called before, with success or without, the links mirror the trees. -/
theorem links_mirror {s : Session} (hs : s.Reachable) : s.Mirrors := by
  obtain ⟨K, hK⟩ := hs.invariant
  have tree {label : String} {v : Value} (hv : s.values.get? label = some v) : v.Wired s.signals :=
    hK.wired.tree label v hv
  refine ⟨?_, fun hv => (tree hv).root, ?_, ?_, ?_⟩
  · rintro label location a ⟨v, hv, ha⟩
    exact hK.wired.bound hv ha
  · rintro label location i a b ⟨v, hv, ha⟩ ⟨w, hw, hb⟩
    cases hv.symm.trans hw
    exact (tree hv).child ha hb
  · rintro label label' location location' a b ⟨v, hv, ha⟩ ⟨w, hw, hb⟩ heq
    obtain ⟨rfl, -⟩ := hK.wired.cell_eq hv hw (Holder.part?_label_mem ha) (Holder.part?_label_mem hb) heq
    cases hv.symm.trans hw
    exact ⟨rfl, (Holder.alone (tree hv).holds.distinct hb).2 _ _ ha heq⟩
  · intro label location v a hv ha
    obtain ⟨above, h⟩ := (tree hv).ascends ha
    exact ⟨above, h, h.once, h.calls⟩

/-- A street, to which a lamp is added after it was made, and a town that listens to it. -/
def street : Definition := { Definition.fresh "street" (.array none) with shape := .array (some lampType) }

def streetType : Ty := street.withIdentity lit.nextIdentity

def streetBulb : Node Cell := ⟨⟨boolType, 4⟩, .bool false⟩

def streetLamp : Node Cell := ⟨⟨lampType, 3⟩, .struct [streetBulb]⟩

def lampStreet : Value := ⟨⟨streetType, 2⟩, some (.array [streetLamp])⟩

def lined : Session :=
  let known := ((sealType "street" street "street").run lit).1
  let laid := ((change "street" [] (.construct [])).run (known.create "street" streetType)).1
  ((change "street" [] .pushDefault).run laid).1.subscribe lampStreet "town"

theorem lined_reachable : lined.Reachable := by
  have hlamp : lit.types.get? "lamp" = some lampType := by rfl
  have hbuilds : lit.Builds street :=
    builds_template "street" (.array none) rfl [lampType] (by simpa using .kept hlamp) (by rfl)
  have hknown := lit_reachable.sealType hbuilds "street"
  generalize hrun : ((sealType "street" street "street").run lit).1 = known at hknown
  have hstreet : known.types.get? "street" = some streetType := by subst hrun; rfl
  have hlaid := hknown.make (.kept hstreet) "street" (.construct []) fun o ho => by cases ho
  have hlined := hlaid.step (.change (c := .pushDefault) (fun o ho => by cases ho) "street" [])
  subst hrun
  exact hlined.step (.subscribe ⟨"street", lampStreet, [], by rfl, rfl⟩ "town")

/-- From the bulb of the new lamp the way goes through the lamp to the street, where the town hears of it. -/
theorem links_mirror_lined : lined.Reachable ∧ lined.values.get? "street" = some lampStreet ∧
    lined.signals.Ascends lampStreet [0, 0] streetBulb.holder [streetLamp.holder, lampStreet] ∧
    lined.signals.Climbs 4 [3, 2] ∧ lined.signals.calls 4 = [⟨3, "town"⟩] := by
  have hstreet : lined.values.get? "street" = some lampStreet := by rfl
  have hbulb : lampStreet.part? [0, 0] = some streetBulb.holder := rfl
  obtain ⟨above, h, -, hcalls⟩ := (links_mirror lined_reachable).ascent hstreet hbulb
  obtain rfl : above = [streetLamp.holder, lampStreet] :=
    List.map_inj_right (fun _ _ => Option.some.inj) |>.1 h.parts
  exact ⟨lined_reachable, hstreet, h, h.climbs.2 rfl, hcalls.trans (by rfl)⟩

end Session

end TypedValues
