import TypedValues.Proofs.Change
import TypedValues.Proofs.Place
import TypedValues.Session.Operations
import Mathlib.Logic.Relation

/-! Runs of a session. A host starts from the initial session and calls the operations in any order,
with whatever it has got hold of by then: types and the types they are made of, values and copies of
them, definitions it has built up. A call that fails is a step like any other. -/

namespace TypedValues

namespace Session

/-- A live value, or a node inside one, as it is now. -/
def Part (s : Session) (a : Value) : Prop :=
  ∃ label v location, s.values.get? label = some v ∧ v.part? location = some a

/-- The sealed types that a host can get hold of. -/
inductive Knows (s : Session) : Ty → Prop where
  | kept {label : String} {t : Ty} (h : s.types.get? label = some t) : Knows s t
  | registered {id : TypeId} {t : Ty} (h : s.space.type? id = some t) : Knows s t
  | part {t u : Ty} (ht : Knows s t) (hu : u ∈ t.definition.parts) : Knows s u
  | value {a : Value} (ha : s.Part a) : Knows s a.type

/-- The values that a host can copy or make: parts of live values, defaults of members, values without
content, and the children of all these. -/
inductive Has (s : Session) : Snapshot → Prop where
  | blank {t : Ty} (ht : s.Knows t) : Has s ⟨t, none⟩
  | part {a : Value} (ha : s.Part a) : Has s a.snapshot
  | default {t : Ty} {m : Member} {n : Node Ty} (ht : s.Knows t) (hm : m ∈ t.shape.members)
      (hn : m.default = some n) : Has s n.holder
  | child {t : Ty} {c : Content Ty} {n : Node Ty} (hc : Has s ⟨t, some c⟩) (hn : n ∈ c.children) :
      Has s n.holder

/-- An expression of the host gives an error or a value that the host can make. -/
def Offers (s : Session) : Operand → Prop
  | .literal _ => True
  | .value v => s.Has v
  | .item r => s.Knows r.type ∧ r.item?.isSome
  | .expression e => ∀ v, e.outcome = .ok v → s.Has v

end Session

/-- The shapes that definitions start with. -/
def Shape.Blank : Shape → Prop
  | .enum d => d = .empty
  | .struct base members => base = none ∧ members = []
  | s => s.arguments = []

namespace Session

inductive Builds (s : Session) : Definition → Prop where
  | kept {label : String} {d : Definition} (h : s.drafts.get? label = some d) : Builds s d
  | fresh (name : String) {shape : Shape} (h : shape.Blank) : Builds s (.fresh name shape)
  | cloneOf {t : Ty} (ht : s.Knows t) (name : String) : Builds s (t.cloneNamed name)
  | aliasOf {t : Ty} (ht : s.Knows t) (name : String) : Builds s (t.aliasNamed name)
  | annotate {d e : Definition} {a : Attribute} (hd : Builds s d) (h : d.addAttribute a = .ok e) :
      Builds s e
  | instantiate {d e : Definition} {arguments : List Argument} (hd : Builds s d)
      (ha : ∀ t, .type t ∈ arguments → s.Knows t)
      (h : ((d.instantiate arguments).run s.policy).outcome = .ok e) : Builds s e
  | item {d e : Definition} {i : EnumItem} (hd : Builds s d) (h : d.addItem i = .ok e) : Builds s e
  | defaultItem {d e : Definition} {name : String} (hd : Builds s d)
      (h : d.setDefaultItem name = .ok e) : Builds s e
  | member {d e : Definition} {name : String} {type : Ty} {default : Option Snapshot} {m : Member}
      (hd : Builds s d) (htype : s.Knows type) (hdefault : ∀ v, default = some v → s.Has v)
      (hm : Member.declare name type default = .ok m) (h : d.addMember m = .ok e) : Builds s e
  | base {d e : Definition} {t : Ty} (hd : Builds s d) (ht : s.Knows t) (h : d.setBase t = .ok e) :
      Builds s e

inductive Step : Session → Session → Prop where
  | policy (s : Session) (policy : Policy) : Step s { s with policy }
  | renew (s : Session) (withBuiltins : Bool) : Step s ((renew withBuiltins).run s).1
  | addScope (s : Session) (parent : ScopeId) (name : String) (label : Option String) :
      Step s ((addScope parent name label).run s).1
  | define {s : Session} {d : Definition} (hd : s.Builds d) (label : String) : Step s (s.putDraft label d)
  | addType {s : Session} {d : Definition} (hd : s.Builds d) (draft : String) (scope : ScopeId)
      (label : Option String) : Step s ((addType draft d scope label).run s).1
  | sealType {s : Session} {d : Definition} (hd : s.Builds d) (draft label : String) :
      Step s ((sealType draft d label).run s).1
  | keepType {s : Session} {t : Ty} (ht : s.Knows t) (label : String) :
      Step s { s with types := s.types.put label t }
  | store {s : Session} {v : Snapshot} (hv : s.Has v) (label : String) : Step s (s.store label v)
  | drop (s : Session) (label : String) : Step s { s with values := s.values.erase label }
  | change {s : Session} {c : Change} (hc : ∀ o ∈ c.operands, s.Offers o) (label : String)
      (walk : List Access) : Step s ((change label walk c).run s).1
  | subscribe {s : Session} {target : Value} (ht : s.Part target) (label : String) :
      Step s (s.subscribe target label)
  | unsubscribe {s : Session} {target : Value} (ht : s.Part target) (observer : ObserverId) :
      Step s (s.unsubscribe target observer).1

def Run : Session → Session → Prop := Relation.ReflTransGen Step

def Reachable (s : Session) : Prop := Run initial s

theorem Reachable.step {s t : Session} (h : s.Reachable) (hst : Step s t) : t.Reachable :=
  Relation.ReflTransGen.tail h hst

theorem Reachable.sealType {s : Session} (hs : s.Reachable) {d : Definition} (hd : s.Builds d)
    (label : String) : ((Session.sealType label d label).run s).1.Reachable :=
  hs.step (.sealType hd label label)

/-- A value without content is made and changed. -/
theorem Reachable.make {s : Session} (hs : s.Reachable) {t : Ty} (ht : s.Knows t) (label : String)
    (c : Change) (h : ∀ o ∈ c.operands, (s.create label t).Offers o) :
    ((change label [] c).run (s.create label t)).1.Reachable :=
  (hs.step (.store (.blank ht) label)).step (.change h label [])

-- A small run. A lamp is a struct with a flag; one is made, and it and its flag are observed.
def boolType : Ty :=
  ((Definition.fresh "bool" .bool).register Namespace.rootScope .root 0).withIdentity 0

def lamp : Definition := { Definition.fresh "lamp" (.struct none []) with
  shape := .struct none [⟨⟨"on", none, .child (.child .root "lamp") "on"⟩, boolType, none⟩] }

def lampType : Ty := lamp.withIdentity Namespace.builtins.length

/-- A live flag and a live lamp, under the signals that they have when the lamp is made first. -/
def bulb : Node Cell := ⟨⟨boolType, 1⟩, .bool false⟩

def deskLamp : Node Cell := ⟨⟨lampType, 0⟩, .struct [bulb]⟩

def made : Session :=
  let known := ((sealType "lamp" lamp "lamp").run initial).1
  ((change "desk" [] (.construct [])).run (known.create "desk" lampType)).1

def lit : Session := (made.subscribe deskLamp.holder "room").subscribe bulb.holder "bulb"

theorem lit_reachable : lit.Reachable := by
  have hbool : initial.Knows boolType := by
    have hzero : initial.space.type? 0 = some boolType := rfl
    exact .registered hzero
  have hlamp : initial.Builds lamp := by
    have hempty : initial.Builds (.fresh "lamp" (.struct none [])) := .fresh "lamp" ⟨rfl, rfl⟩
    have hflag : Member.declare "on" boolType none = .ok ⟨.detached "on", boolType, none⟩ := rfl
    exact hempty.member hbool (fun v hv => by cases hv) hflag rfl
  have hknown : Reachable ((sealType "lamp" lamp "lamp").run initial).1 :=
    Relation.ReflTransGen.refl.tail (.sealType hlamp "lamp" "lamp")
  generalize hk : ((sealType "lamp" lamp "lamp").run initial).1 = known at hknown
  have hlampType : known.types.get? "lamp" = some lampType := hk ▸ rfl
  have hcreated : Reachable (known.create "desk" lampType) :=
    hknown.step (.store (.blank (.kept hlampType)) "desk")
  have hmade : made.Reachable := by
    subst hk
    exact hcreated.step (.change (fun o ho => by cases ho) "desk" [])
  have hdesk : made.values.get? "desk" = some deskLamp.holder := by rfl
  have hroom : Reachable (made.subscribe deskLamp.holder "room") :=
    hmade.step (.subscribe ⟨"desk", _, [], hdesk, rfl⟩ "room")
  have hbulb : (made.subscribe deskLamp.holder "room").Part bulb.holder :=
    ⟨"desk", _, [0], hdesk, rfl⟩
  exact hroom.step (.subscribe hbulb "bulb")

/-- The type of the lamp under another name. -/
def fixtureType : Ty := (lampType.aliasNamed "fixture").withIdentity lit.nextIdentity

def fitted : Session := ((sealType "fixture" (lampType.aliasNamed "fixture") "fixture").run lit).1

def furnished : Session := (fitted.create "shelf" lampType).create "spare" fixtureType

theorem furnished_reachable : furnished.Reachable := by
  have hlamp : lit.types.get? "lamp" = some lampType := by rfl
  have hfitted : fitted.Reachable := lit_reachable.sealType (.aliasOf (.kept hlamp) "fixture") "fixture"
  have hlamp' : fitted.types.get? "lamp" = some lampType := by rfl
  have hfixture : (fitted.create "shelf" lampType).types.get? "fixture" = some fixtureType := by rfl
  exact (hfitted.step (.store (.blank (.kept hlamp')) "shelf")).step (.store (.blank (.kept hfixture)) "spare")

/-- The lamp on the shelf is made to be on, and the spare fixture to be off. -/
def lighted : Session :=
  let shelved := ((change "shelf" [] (.construct [⟨none, .operand (.literal (.bool true))⟩])).run furnished).1
  ((change "spare" [] (.construct [])).run shelved).1

def shelfLamp : Node Cell := ⟨⟨lampType, 2⟩, .struct [⟨⟨boolType, 4⟩, .bool true⟩]⟩

def spareLamp : Node Cell := ⟨⟨fixtureType, 3⟩, .struct [⟨⟨boolType, 5⟩, .bool false⟩]⟩

theorem lighted_reachable : lighted.Reachable := by
  have hshelved := furnished_reachable.step
    (.change (c := .construct [⟨none, .operand (.literal (.bool true))⟩]) (fun o ho => ?_) "shelf" [])
  · exact hshelved.step (.change (fun o ho => by cases ho) "spare" [])
  · obtain rfl := List.mem_singleton.1 ho
    trivial

theorem lighted_parts : lighted.Part deskLamp.holder ∧ lighted.Part shelfLamp.holder ∧
    lighted.Part spareLamp.holder := by
  have hdesk : lighted.values.get? "desk" = some deskLamp.holder := by rfl
  have hshelf : lighted.values.get? "shelf" = some shelfLamp.holder := by rfl
  have hspare : lighted.values.get? "spare" = some spareLamp.holder := by rfl
  exact ⟨⟨"desk", _, [], hdesk, rfl⟩, ⟨"shelf", _, [], hshelf, rfl⟩, ⟨"spare", _, [], hspare, rfl⟩⟩

end Session

end TypedValues
