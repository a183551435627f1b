import TypedValues.Proofs.Catalog
import Mathlib.Data.List.Nodup

/-! Paths as text. A path of valid names is read back from its text, so paths with one text are one
path, and a name that occurs once in a list is found where it stands. -/

namespace TypedValues

theorem nameFault?_eq_none {name : String} (h : nameFault? name = none) :
    name ≠ "" ∧ ∀ c ∈ name.toList, Text.isBlank c = false ∧ isReserved c = false := by
  unfold nameFault? at h
  split at h
  next => cases h
  next hempty =>
    refine ⟨fun hname => hempty (by rw [hname]; rfl), fun c hc => ?_⟩
    have hfind := List.find?_eq_none.1 (Option.map_eq_none_iff.1 h) c hc
    simpa using hfind

theorem not_colon_of_nameFault? {name : String} (h : nameFault? name = none) :
    ':' ∉ name.toList := by
  intro hmem
  have hreserved := ((nameFault?_eq_none h).2 ':' hmem).2
  simp [isReserved] at hreserved

namespace Text

theorem piecesAtColons_cons {c : Char} (hc : c ≠ ':') (cs : List Char) :
    piecesAtColons (c :: cs) = prepend c (piecesAtColons cs) := by
  rw [piecesAtColons]
  intro rest heq
  exact absurd heq hc

theorem piecesAtColons_of_not_mem {cs : List Char} (h : ':' ∉ cs) : piecesAtColons cs = [cs] := by
  induction cs with
  | nil => rfl
  | cons c cs ih =>
    rw [List.mem_cons, not_or] at h
    rw [piecesAtColons_cons (Ne.symm h.1), ih h.2]
    rfl

theorem piecesAtColons_append {cs : List Char} (h : ':' ∉ cs) (rest : List Char) :
    piecesAtColons (cs ++ ':' :: ':' :: rest) = cs :: piecesAtColons rest := by
  induction cs with
  | nil => rfl
  | cons c cs ih =>
    rw [List.mem_cons, not_or] at h
    rw [List.cons_append, piecesAtColons_cons (Ne.symm h.1), ih h.2]
    rfl

theorem trim_of_not_blank {cs : List Char} (h : ∀ c ∈ cs, isBlank c = false) : trim cs = cs := by
  have hstart {ds : List Char} (hds : ∀ c ∈ ds, isBlank c = false) : ds.dropWhile isBlank = ds := by
    cases ds with
    | nil => rfl
    | cons d ds => rw [List.dropWhile_cons, hds d List.mem_cons_self]; rfl
  rw [trim, trimStart, hstart h, trimEnd, hstart fun c hc => h c (List.mem_reverse.1 hc),
    List.reverse_reverse]

end Text

namespace Path

theorem piecesAtColons_text {name : String} {rest : List String}
    (h : ∀ segment ∈ name :: rest, ':' ∉ segment.toList) :
    Text.piecesAtColons ("::".intercalate (name :: rest)).toList =
      (name :: rest).map String.toList := by
  induction rest generalizing name with
  | nil =>
    rw [List.forall_mem_singleton] at h
    rw [String.intercalate_singleton, Text.piecesAtColons_of_not_mem h]
    rfl
  | cons next rest ih =>
    rw [List.forall_mem_cons] at h
    have hsep : ("::" : String).toList = [':', ':'] := rfl
    rw [String.intercalate_cons_cons, String.toList_append, String.toList_append, hsep,
      List.append_assoc, List.cons_append, List.cons_append, List.nil_append,
      Text.piecesAtColons_append h.1, ih h.2]
    rfl

/-- A path of valid names is read back from its text. -/
theorem parse_text {p : Path} (h : p.Valid) : parse p.text = p := by
  rcases p with ⟨_ | ⟨name, rest⟩⟩
  · rfl
  · have hcolon : ∀ segment ∈ name :: rest, ':' ∉ segment.toList :=
      fun segment hmem => not_colon_of_nameFault? (h segment hmem)
    have htrim : (name :: rest).map (Text.trim ∘ String.toList) = (name :: rest).map String.toList :=
      List.map_congr_left fun segment hmem =>
        Text.trim_of_not_blank fun c hc => ((nameFault?_eq_none (h segment hmem)).2 c hc).1
    have hfilter : ((name :: rest).map String.toList).filter (!·.isEmpty) =
        (name :: rest).map String.toList := by
      apply List.filter_eq_self.2
      intro cs hcs
      obtain ⟨segment, hmem, rfl⟩ := List.mem_map.1 hcs
      have hne := (nameFault?_eq_none (h segment hmem)).1
      simpa [List.isEmpty_iff, String.toList_eq_nil_iff] using hne
    simp only [parse, text]
    rw [piecesAtColons_text hcolon, List.map_map, htrim, hfilter, List.map_map]
    simp [Function.comp_def]

theorem text_injective {p q : Path} (hp : p.Valid) (hq : q.Valid) (h : p.text = q.text) : p = q := by
  rw [← parse_text hp, h, parse_text hq]

end Path

theorem findIdx?_of_nodup {α : Type} {l : List α} {f : α → String} (h : (l.map f).Nodup) {i : Nat}
    {a : α} (hi : l[i]? = some a) : l.findIdx? (f · == f a) = some i := by
  obtain ⟨hlt, rfl⟩ := List.getElem?_eq_some_iff.1 hi
  refine List.findIdx?_eq_some_iff_getElem.2 ⟨hlt, beq_self_eq_true _, fun j hj heq => ?_⟩
  have hlast : i < (l.map f).length := by rw [List.length_map]; exact hlt
  have hfirst : j < (l.map f).length := hj.trans hlast
  have hname : (l.map f)[j] = (l.map f)[i] := by simpa using heq
  exact hj.ne (h.getElem_inj_iff.1 hname)

end TypedValues
