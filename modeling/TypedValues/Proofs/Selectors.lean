import TypedValues.Proofs.Attempt
import TypedValues.Proofs.Paths
import TypedValues.Selector.Text
import Mathlib.Data.List.DropRight

/-! Selectors and their texts. The texts that can be read are those of a small grammar, and each spells
one selector. A selector that was read is read back from the text it is shown as, and so is every
selector of valid names and positions. -/

namespace TypedValues

namespace Text

/-- No blank at either end. -/
structure Tight (cs : List Char) : Prop where
  head : ∀ c ∈ cs.head?, isBlank c = false
  last : ∀ c ∈ cs.getLast?, isBlank c = false

theorem trim_eq (cs : List Char) : trim cs = (cs.dropWhile isBlank).rdropWhile isBlank := rfl

theorem Tight.trim {cs : List Char} (h : Tight cs) : trim cs = cs := by
  have hstart : cs.dropWhile isBlank = cs := by
    cases cs with
    | nil => rfl
    | cons c cs => rw [List.dropWhile_cons, h.head c rfl]; rfl
  rw [trim_eq, hstart]
  refine List.rdropWhile_eq_self_iff.2 fun hne => ?_
  simp [h.last _ (List.getLast?_eq_some_getLast hne)]

theorem tight_trim (cs : List Char) : Tight (trim cs) := by
  rw [trim_eq]
  constructor
  · intro c hc
    obtain ⟨rest, hrest⟩ := List.rdropWhile_prefix isBlank (cs.dropWhile isBlank)
    have hhead : (cs.dropWhile isBlank).head? = some c := by
      rw [← hrest, List.head?_append, Option.mem_def.1 hc]
      rfl
    have hnot := List.head?_dropWhile_not isBlank cs
    rw [hhead] at hnot
    simpa using hnot
  · intro c hc
    have hne : (cs.dropWhile isBlank).rdropWhile isBlank ≠ [] := by
      intro h
      rw [h] at hc
      cases hc
    rw [List.getLast?_eq_some_getLast hne, Option.mem_some_iff] at hc
    rw [← hc]
    simpa using List.rdropWhile_last_not isBlank (cs.dropWhile isBlank) hne

theorem Tight.append {cs ds : List Char} (hc : Tight cs) (hd : Tight ds) : Tight (cs ++ ds) := by
  constructor
  · intro c h
    rw [List.head?_append, Option.mem_def, Option.or_eq_some_iff] at h
    rcases h with h | ⟨-, h⟩
    · exact hc.head c h
    · exact hd.head c h
  · intro c h
    rw [List.getLast?_append, Option.mem_def, Option.or_eq_some_iff] at h
    rcases h with h | ⟨-, h⟩
    · exact hd.last c h
    · exact hc.last c h

theorem tight_singleton {c : Char} (h : isBlank c = false) : Tight [c] := by
  constructor <;> simpa using h

theorem tight_of_not_blank {cs : List Char} (h : ∀ c ∈ cs, isBlank c = false) : Tight cs :=
  ⟨fun c hc => h c (List.mem_of_mem_head? hc), fun c hc => h c (List.mem_of_mem_getLast? hc)⟩

end Text

namespace Reading

/-- Digits, possibly behind a plus sign, of a number below `2 ^ 64`. -/
structure Numeral (cs : List Char) (i : Nat) : Prop where
  spelled : ∃ ds, (cs = ds ∨ cs = '+' :: ds) ∧ ds ≠ [] ∧ (∀ c ∈ ds, c.isDigit = true) ∧
    Nat.ofDigitChars 10 ds 0 = i
  bounded : i < twoTo 64

theorem digits?_eq_some {cs : List Char} {n : Nat} :
    digits? cs = some n ↔ cs ≠ [] ∧ (∀ c ∈ cs, c.isDigit = true) ∧ Nat.ofDigitChars 10 cs 0 = n := by
  rw [digits?, Nat.ofDigitChars_eq_foldl]
  simp [and_assoc]

theorem position?_eq_some {cs : List Char} {i : Nat} : position? cs = some i ↔ Numeral cs i := by
  have hread (ds : List Char) {r : Option Nat} (hnone : digits? ds = none → r = none)
      (hsome : ∀ n, digits? ds = some n → r = if n < twoTo 64 then some n else none) :
      r = some i ↔ digits? ds = some i ∧ i < twoTo 64 := by
    cases hd : digits? ds with
    | none => simp [hnone hd]
    | some n =>
      rw [hsome n hd]
      simp only [Option.ite_none_right_eq_some, Option.some.injEq]
      grind
  unfold position?
  split
  case h_1 rest =>
    refine (hread rest (fun hd => by simp only [hd]) fun n hd => by simp only [hd]).trans ?_
    rw [digits?_eq_some]
    constructor
    · rintro ⟨h, hlt⟩
      exact ⟨⟨rest, .inr rfl, h⟩, hlt⟩
    · rintro ⟨⟨ds, rfl | h, hds⟩, hlt⟩
      · exact absurd (hds.2.1 '+' List.mem_cons_self) (by decide)
      · rw [List.cons.inj h |>.2]
        exact ⟨hds, hlt⟩
  case h_2 hplus =>
    refine (hread cs (fun hd => by simp only [hd]) fun n hd => by simp only [hd]).trans ?_
    rw [digits?_eq_some]
    constructor
    · rintro ⟨h, hlt⟩
      exact ⟨⟨cs, .inl rfl, h⟩, hlt⟩
    · rintro ⟨⟨ds, rfl | h, hds⟩, hlt⟩
      · exact ⟨hds, hlt⟩
      · exact absurd h (hplus ds)

theorem digits_of_toString {i : Nat} : ∀ c ∈ (toString i).toList, c.isDigit = true := by
  rw [Nat.toString_eq_repr, Nat.toList_repr]
  exact fun c hc => Nat.isDigit_of_mem_toDigits (by decide) (by decide) hc

theorem numeral_toString {i : Nat} (h : i < twoTo 64) : Numeral (toString i).toList i := by
  refine ⟨⟨_, .inl rfl, ?_, digits_of_toString, ?_⟩, h⟩
  · rw [Nat.toString_eq_repr, Nat.toList_repr]
    exact Nat.toDigits_ne_nil
  · rw [Nat.toString_eq_repr, Nat.toList_repr, Nat.ofDigitChars_ten_toDigits]

theorem not_blank_of_isDigit {c : Char} (h : c.isDigit = true) : Text.isBlank c = false := by
  simp only [Char.isDigit, Bool.and_eq_true, decide_eq_true_eq, UInt32.le_iff_toNat_le] at h
  have hle : 48 ≤ c.toNat ∧ c.toNat ≤ 57 := h
  simp [Text.isBlank]
  omega

end Reading

namespace Selector

/-- The characters of a name: neither points nor opening brackets, and not all blank. -/
structure Name (cs : List Char) : Prop where
  no_point : '.' ∉ cs
  no_bracket : '[' ∉ cs
  named : Text.trim cs ≠ []

/-- What can stand behind a first step: names behind points, and positions in brackets. Blanks around
a name or a position do not count. -/
inductive Steps : List Char → Selector → Prop
  | nil : Steps [] []
  | member {name rest : List Char} {s : Selector} (hname : Name name) (hrest : Steps rest s) :
      Steps ('.' :: (name ++ rest)) (.member (String.ofList (Text.trim name)) :: s)
  | index {inside rest : List Char} {i : Nat} {s : Selector} (hclosed : ']' ∉ inside)
      (hread : Reading.Numeral (Text.trim inside) i) (hrest : Steps rest s) :
      Steps ('[' :: (inside ++ ']' :: rest)) (.index i :: s)

/-- The first step is a bare name or a position in brackets. -/
inductive Spells : List Char → Selector → Prop
  | nil : Spells [] []
  | member {name rest : List Char} {s : Selector} (hname : Name name) (hrest : Steps rest s) :
      Spells (name ++ rest) (.member (String.ofList (Text.trim name)) :: s)
  | index {cs : List Char} {s : Selector} (h : Steps ('[' :: cs) s) : Spells ('[' :: cs) s

/-- What can stand behind the first characters of a name. -/
def BehindName (name cs : List Char) (s : Selector) : Prop :=
  ∃ more rest steps, cs = more ++ rest ∧ '.' ∉ more ∧ '[' ∉ more ∧ Text.trim (name ++ more) ≠ [] ∧
    Steps rest steps ∧ s = .member (String.ofList (Text.trim (name ++ more))) :: steps

/-- What can stand behind the first characters in brackets. -/
def BehindBracket (index cs : List Char) (s : Selector) : Prop :=
  ∃ more rest i steps, cs = more ++ ']' :: rest ∧ ']' ∉ more ∧
    Reading.Numeral (Text.trim (index ++ more)) i ∧ Steps rest steps ∧ s = .index i :: steps

theorem nameStep_eq_ok {cs : List Char} {st : Step} : nameStep cs = .ok st ↔
    Text.trim cs ≠ [] ∧ st = .member (String.ofList (Text.trim cs)) := by
  unfold nameStep
  cases Text.trim cs <;> simp [eq_comm]

theorem indexStep_eq_ok {cs : List Char} {st : Step} : indexStep cs = .ok st ↔
    ∃ i, Reading.Numeral (Text.trim cs) i ∧ st = .index i := by
  simp only [indexStep, ← Reading.position?_eq_some]
  cases Reading.position? (Text.trim cs) <;> simp [eq_comm]

theorem steps_point {cs : List Char} {s : Selector} : Steps ('.' :: cs) s ↔ BehindName [] cs s := by
  constructor
  · rintro (_ | ⟨hname, hrest⟩)
    exact ⟨_, _, _, rfl, hname.no_point, hname.no_bracket, hname.named, hrest, rfl⟩
  · rintro ⟨more, rest, steps, rfl, hpoint, hbracket, hnamed, hrest, rfl⟩
    exact .member ⟨hpoint, hbracket, hnamed⟩ hrest

theorem steps_bracket {cs : List Char} {s : Selector} : Steps ('[' :: cs) s ↔ BehindBracket [] cs s := by
  constructor
  · rintro (_ | _ | ⟨hclosed, hread, hrest⟩)
    exact ⟨_, _, _, _, rfl, hclosed, hread, hrest, rfl⟩
  · rintro ⟨more, rest, i, steps, rfl, hclosed, hread, hrest, rfl⟩
    exact .index hclosed hread hrest

theorem behindName_separator {name cs : List Char} {c : Char} (hc : c = '.' ∨ c = '[') {s : Selector} :
    BehindName name (c :: cs) s ↔
      ∃ st steps, nameStep name = .ok st ∧ Steps (c :: cs) steps ∧ s = st :: steps := by
  constructor
  · rintro ⟨more, rest, steps, hcs, hpoint, hbracket, hnamed, hrest, rfl⟩
    cases more with
    | nil =>
      rw [List.nil_append] at hcs
      rw [List.append_nil] at hnamed ⊢
      exact ⟨_, steps, nameStep_eq_ok.2 ⟨hnamed, rfl⟩, hcs ▸ hrest, rfl⟩
    | cons d more =>
      obtain ⟨rfl, -⟩ := List.cons.inj hcs
      rcases hc with rfl | rfl
      · exact absurd List.mem_cons_self hpoint
      · exact absurd List.mem_cons_self hbracket
  · rintro ⟨st, steps, hst, hrest, rfl⟩
    obtain ⟨hnamed, rfl⟩ := nameStep_eq_ok.1 hst
    refine ⟨[], c :: cs, steps, rfl, List.not_mem_nil, List.not_mem_nil, ?_, hrest, ?_⟩
    · rwa [List.append_nil]
    · rw [List.append_nil]

theorem behindName_cons {name cs : List Char} {c : Char} (hpoint : c ≠ '.') (hbracket : c ≠ '[')
    {s : Selector} : BehindName name (c :: cs) s ↔ BehindName (name ++ [c]) cs s := by
  constructor
  · rintro ⟨more, rest, steps, hcs, hmore, hmore', hnamed, hrest, rfl⟩
    cases more with
    | nil =>
      rw [List.nil_append] at hcs
      subst hcs
      cases hrest <;> contradiction
    | cons d more =>
      obtain ⟨rfl, rfl⟩ := List.cons.inj hcs
      rw [List.append_cons name c more] at hnamed ⊢
      exact ⟨more, rest, steps, rfl, fun h => hmore (List.mem_cons_of_mem _ h),
        fun h => hmore' (List.mem_cons_of_mem _ h), hnamed, hrest, rfl⟩
  · rintro ⟨more, rest, steps, rfl, hmore, hmore', hnamed, hrest, rfl⟩
    refine ⟨c :: more, rest, steps, rfl, ?_, ?_, ?_, hrest, ?_⟩
    · simp [hmore, hpoint.symm]
    · simp [hmore', hbracket.symm]
    · rwa [List.append_cons]
    · rw [← List.append_cons]

theorem behindBracket_close {index cs : List Char} {s : Selector} : BehindBracket index (']' :: cs) s ↔
    ∃ st steps, indexStep index = .ok st ∧ Steps cs steps ∧ s = st :: steps := by
  constructor
  · rintro ⟨more, rest, i, steps, hcs, hclosed, hread, hrest, rfl⟩
    cases more with
    | nil =>
      obtain ⟨-, rfl⟩ := List.cons.inj hcs
      rw [List.append_nil] at hread
      exact ⟨_, steps, indexStep_eq_ok.2 ⟨i, hread, rfl⟩, hrest, rfl⟩
    | cons d more =>
      obtain ⟨rfl, -⟩ := List.cons.inj hcs
      exact absurd List.mem_cons_self hclosed
  · rintro ⟨st, steps, hst, hrest, rfl⟩
    obtain ⟨i, hread, rfl⟩ := indexStep_eq_ok.1 hst
    refine ⟨[], cs, i, steps, rfl, List.not_mem_nil, ?_, hrest, rfl⟩
    rwa [List.append_nil]

theorem behindBracket_cons {index cs : List Char} {c : Char} (hc : c ≠ ']') {s : Selector} :
    BehindBracket index (c :: cs) s ↔ BehindBracket (index ++ [c]) cs s := by
  constructor
  · rintro ⟨more, rest, i, steps, hcs, hclosed, hread, hrest, rfl⟩
    cases more with
    | nil => exact absurd (List.cons.inj hcs).1 hc
    | cons d more =>
      obtain ⟨rfl, rfl⟩ := List.cons.inj hcs
      rw [List.append_cons] at hread
      exact ⟨more, rest, i, steps, rfl, fun h => hclosed (List.mem_cons_of_mem _ h), hread, hrest, rfl⟩
  · rintro ⟨more, rest, i, steps, rfl, hclosed, hread, hrest, rfl⟩
    refine ⟨c :: more, rest, i, steps, rfl, ?_, ?_, hrest, rfl⟩
    · simp [hclosed, hc.symm]
    · rwa [List.append_cons]

theorem cons_eq_ok {x : Except SelectorFault Step} {y : Except SelectorFault Selector} {s : Selector} :
    (do let st ← x; return st :: (← y)) = .ok s ↔
      ∃ st steps, x = .ok st ∧ y = .ok steps ∧ s = st :: steps := by
  simp only [Except.bind_eq_ok, Except.pure_eq_ok]
  constructor
  · rintro ⟨st, hst, steps, hsteps, rfl⟩
    exact ⟨st, steps, hst, hsteps, rfl⟩
  · rintro ⟨st, steps, hst, hsteps, rfl⟩
    exact ⟨st, hst, steps, hsteps, rfl⟩

theorem read_iff (cs : List Char) :
    (∀ s, readSteps cs = .ok s ↔ Steps cs s) ∧
    (∀ name s, readName name cs = .ok s ↔ BehindName name cs s) ∧
    (∀ index s, readIndex index cs = .ok s ↔ BehindBracket index cs s) := by
  -- on the characters left, for the three readers at once, as each goes on as another
  induction cs with
  | nil =>
    refine ⟨fun s => ?_, fun name s => ?_, fun index s => ?_⟩
    · rw [readSteps]
      constructor
      · rintro ⟨⟩
        exact .nil
      · rintro ⟨⟩
        rfl
    · rw [readName, Except.bind_eq_ok]
      constructor
      · rintro ⟨st, hst, ⟨⟩⟩
        obtain ⟨hnamed, rfl⟩ := nameStep_eq_ok.1 hst
        refine ⟨[], [], [], rfl, List.not_mem_nil, List.not_mem_nil, ?_, .nil, ?_⟩
        · rwa [List.append_nil]
        · rw [List.append_nil]
      · rintro ⟨more, rest, steps, hcs, -, -, hnamed, hrest, rfl⟩
        obtain ⟨rfl, rfl⟩ := List.append_eq_nil_iff.1 hcs.symm
        cases hrest
        rw [List.append_nil] at hnamed ⊢
        exact ⟨_, nameStep_eq_ok.2 ⟨hnamed, rfl⟩, rfl⟩
    · rw [readIndex]
      constructor
      · rintro ⟨⟩
      · rintro ⟨more, rest, i, steps, hcs, -⟩
        simp at hcs
  | cons c cs ih =>
    obtain ⟨ihsteps, ihname, ihindex⟩ := ih
    have hsteps : ∀ s, readSteps (c :: cs) = .ok s ↔ Steps (c :: cs) s := by
      intro s
      rw [readSteps]
      split_ifs with hpoint hbracket
      · rw [hpoint, steps_point, ihname]
      · rw [hbracket, steps_bracket, ihindex]
      · constructor
        · rintro ⟨⟩
        · intro h
          cases h <;> contradiction
    refine ⟨hsteps, fun name s => ?_, fun index s => ?_⟩
    · rw [readName]
      split_ifs with hpoint hbracket
      · rw [behindName_separator (.inl hpoint), hpoint, cons_eq_ok]
        simp only [steps_point, ihname]
      · rw [behindName_separator (.inr hbracket), hbracket, cons_eq_ok]
        simp only [steps_bracket, ihindex]
      · rw [behindName_cons hpoint hbracket, ihname]
    · rw [readIndex]
      split_ifs with hclose
      · rw [hclose, behindBracket_close, cons_eq_ok]
        simp only [ihsteps]
      · rw [behindBracket_cons hclose, ihindex]

theorem read_eq_ok {cs : List Char} {s : Selector} : read cs = .ok s ↔ Spells cs s := by
  unfold read
  split
  case h_1 =>
    constructor
    · rintro ⟨⟩
      exact .nil
    · intro h
      generalize hcs : ([] : List Char) = cs at h
      cases h with
      | nil => rfl
      | member hname hrest =>
        rw [(List.append_eq_nil_iff.1 hcs.symm).1] at hname
        exact absurd rfl hname.named
      | index h => cases hcs
  case h_2 c rest =>
    split_ifs with hbracket
    · rw [(read_iff rest).2.2, ← steps_bracket, hbracket]
      constructor
      · exact .index
      · intro h
        generalize hcs : '[' :: rest = cs at h
        cases h with
        | nil => cases hcs
        | @member name rest' s hname hrest =>
          cases name with
          | nil => exact absurd rfl hname.named
          | cons d name =>
            rw [← (List.cons.inj hcs).1] at hname
            exact absurd List.mem_cons_self hname.no_bracket
        | index h => exact hcs ▸ h
    · rw [(read_iff (c :: rest)).2.1]
      constructor
      · rintro ⟨more, rest', steps, hcs, hpoint, hno, hnamed, hrest, rfl⟩
        rw [hcs]
        exact .member ⟨hpoint, hno, hnamed⟩ hrest
      · intro h
        generalize hcs : c :: rest = cs at h
        cases h with
        | nil => cases hcs
        | member hname hrest =>
          exact ⟨_, _, _, rfl, hname.no_point, hname.no_bracket, hname.named, hrest, rfl⟩
        | index h => exact absurd (List.cons.inj hcs).1 hbracket

theorem parse_eq_ok {text : String} {s : Selector} :
    parse text = .ok s ↔ Spells (Text.trim text.toList) s := by
  rw [← read_eq_ok]
  unfold parse
  cases read (Text.trim text.toList) <;> simp

/-- What reads back: trimmed names without points and opening brackets, and positions below `2 ^ 64`. -/
inductive Legible : Step → Prop
  | member {name : String} (hname : Name name.toList) (htight : Text.Tight name.toList) :
      Legible (.member name)
  | index {i : Nat} (h : i < twoTo 64) : Legible (.index i)

theorem Legible.of_trim {cs : List Char} (h : Name cs) :
    Legible (.member (String.ofList (Text.trim cs))) := by
  have hchars : (String.ofList (Text.trim cs)).toList = Text.trim cs := String.toList_ofList
  have htight := Text.tight_trim cs
  have hsub : Text.trim cs ⊆ cs := fun c hc =>
    (List.dropWhile_suffix Text.isBlank).subset ((List.rdropWhile_prefix Text.isBlank _).subset hc)
  refine .member ⟨?_, ?_, ?_⟩ (by rwa [hchars])
  · rw [hchars]
    exact fun hc => h.no_point (hsub hc)
  · rw [hchars]
    exact fun hc => h.no_bracket (hsub hc)
  · rw [hchars, htight.trim]
    exact h.named

theorem Steps.legible {cs : List Char} {s : Selector} (h : Steps cs s) : ∀ st ∈ s, Legible st := by
  induction h with
  | nil => exact fun _ hst => absurd hst List.not_mem_nil
  | member hname _ ih => exact List.forall_mem_cons.2 ⟨.of_trim hname, ih⟩
  | index _ hread _ ih => exact List.forall_mem_cons.2 ⟨.index hread.bounded, ih⟩

theorem Spells.legible {cs : List Char} {s : Selector} (h : Spells cs s) : ∀ st ∈ s, Legible st := by
  cases h with
  | nil => exact fun _ hst => absurd hst List.not_mem_nil
  | member hname hrest => exact List.forall_mem_cons.2 ⟨.of_trim hname, hrest.legible⟩
  | index h => exact h.legible

theorem toList_shown_member (name : String) : (Step.member name).shown.toList = '.' :: name.toList := by
  rw [Step.shown, String.toList_append]
  rfl

theorem toList_shown_index (i : Nat) :
    (Step.index i).shown.toList = '[' :: ((toString i).toList ++ [']']) := by
  rw [Step.shown, String.toList_append, String.toList_append]
  rfl

theorem Legible.tight {st : Step} (h : Legible st) : Text.Tight st.shown.toList := by
  cases h with
  | member hname htight =>
    rw [toList_shown_member]
    exact (Text.tight_singleton (by decide)).append htight
  | @index i h =>
    have hdigits : Text.Tight (toString i).toList :=
      Text.tight_of_not_blank fun c hc => Reading.not_blank_of_isDigit (Reading.digits_of_toString c hc)
    rw [toList_shown_index]
    exact (Text.tight_singleton (c := '[') (by decide)).append
      (hdigits.append (Text.tight_singleton (by decide)))

/-- The text of a step continues to the text of the steps behind it. -/
theorem Legible.steps {st : Step} (h : Legible st) {rest : List Char} {s : Selector}
    (hrest : Steps rest s) : Steps (st.shown.toList ++ rest) (st :: s) := by
  cases h with
  | @member name hname htight =>
    have hsteps := Steps.member hname hrest
    rw [htight.trim, String.ofList_toList] at hsteps
    rwa [toList_shown_member]
  | @index i h =>
    have hdigit := Reading.digits_of_toString (i := i)
    have htrim : Text.trim (toString i).toList = (toString i).toList :=
      Text.trim_of_not_blank fun c hc => Reading.not_blank_of_isDigit (hdigit c hc)
    have hclosed : ']' ∉ (toString i).toList := fun hmem => absurd (hdigit _ hmem) (by decide)
    have hsteps := Steps.index hclosed (htrim.symm ▸ Reading.numeral_toString h) hrest
    rwa [toList_shown_index, List.cons_append, List.append_assoc]

theorem steps_join {s : Selector} (h : ∀ st ∈ s, Legible st) :
    Steps (String.join (s.map Step.shown)).toList s ∧
      Text.Tight (String.join (s.map Step.shown)).toList := by
  induction s with
  | nil => exact ⟨.nil, by constructor <;> simp⟩
  | cons st s ih =>
    obtain ⟨hst, hs⟩ := List.forall_mem_cons.1 h
    obtain ⟨hsteps, htight⟩ := ih hs
    rw [List.map_cons, String.join_cons, String.toList_append]
    exact ⟨hst.steps hsteps, hst.tight.append htight⟩

theorem spells_shown {s : Selector} (h : ∀ st ∈ s, Legible st) :
    Spells s.shown.toList s ∧ Text.Tight s.shown.toList := by
  cases s with
  | nil => exact ⟨.nil, by constructor <;> simp [shown]⟩
  | cons st s =>
    obtain ⟨hst, hs⟩ := List.forall_mem_cons.1 h
    obtain ⟨hsteps, htight⟩ := steps_join hs
    cases hst with
    | @member name hname htightname =>
      have hspells := Spells.member hname hsteps
      rw [htightname.trim, String.ofList_toList] at hspells
      rw [shown, String.toList_append]
      exact ⟨hspells, htightname.append htight⟩
    | @index i hi =>
      have hbracket := (Legible.index hi).steps hsteps
      have hends := (Legible.index hi).tight.append htight
      have hshown : shown (.index i :: s) = (Step.index i).shown ++ String.join (s.map Step.shown) := rfl
      rw [hshown, String.toList_append]
      rw [toList_shown_index, List.cons_append] at hbracket hends ⊢
      exact ⟨.index hbracket, hends⟩

theorem parse_shown_of_legible {s : Selector} (h : ∀ st ∈ s, Legible st) : parse s.shown = .ok s := by
  obtain ⟨hspells, htight⟩ := spells_shown h
  rw [parse_eq_ok, htight.trim]
  exact hspells

/-- A member step of a valid name, or a step to a position below `2 ^ 64`. -/
def Addresses : Step → Prop
  | .member name => nameFault? name = none
  | .index i => i < twoTo 64
  | .variantAs _ => False

theorem Addresses.legible {st : Step} (h : Addresses st) : Legible st := by
  cases st with
  | member name =>
    obtain ⟨hne, hchars⟩ := nameFault?_eq_none h
    have hfree {c : Char} (hc : isReserved c = true) : c ∉ name.toList := fun hmem => by
      rw [(hchars c hmem).2] at hc
      cases hc
    have htrim : Text.trim name.toList = name.toList :=
      Text.trim_of_not_blank fun c hc => (hchars c hc).1
    refine .member ⟨hfree (by decide), hfree (by decide), ?_⟩
      (Text.tight_of_not_blank fun c hc => (hchars c hc).1)
    rwa [htrim, Ne, String.toList_eq_nil_iff]
  | index i => exact .index h
  | variantAs type => exact h.elim

/-- A selector that was read reads back from its own text, as does every selector of valid names and
positions; and the texts that are read are those of the grammar, blanks at both ends aside. -/
theorem parse_corresponds :
    (∀ text s, parse text = .ok s → parse s.shown = .ok s) ∧
    (∀ s : Selector, (∀ st ∈ s, Addresses st) → parse s.shown = .ok s) ∧
    (∀ text s, parse text = .ok s ↔ Spells (Text.trim text.toList) s) :=
  ⟨fun _ _ h => parse_shown_of_legible (parse_eq_ok.1 h).legible,
    fun _ h => parse_shown_of_legible fun st hst => (h st hst).legible,
    fun _ _ => parse_eq_ok⟩

example : parse " a ] .b[ +07 ]" = .ok [.member "a ]", .member "b", .index 7] := by rfl

end Selector

end TypedValues
