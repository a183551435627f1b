import TypedValues.Text.Basic

/-!
Qualified paths: the names from the root scope down, written with double colons between them. The
empty path is the root.
-/

namespace TypedValues

structure Path where
  segments : List String
  deriving DecidableEq

namespace Path

def root : Path := ⟨[]⟩

/-- Blanks around a segment and empty segments are skipped. -/
def parse (text : String) : Path :=
  let segments := (Text.piecesAtColons text.toList).map Text.trim
  ⟨(segments.filter (!·.isEmpty)).map String.ofList⟩

def text (p : Path) : String := "::".intercalate p.segments

instance : ToString Path := ⟨text⟩

def child (p : Path) (name : String) : Path := ⟨p.segments ++ [name]⟩

def append (p q : Path) : Path := ⟨p.segments ++ q.segments⟩

/-- The path without its last name; the root has none. -/
def parent? (p : Path) : Option Path :=
  if p.segments.isEmpty then none else some ⟨p.segments.dropLast⟩

def last? (p : Path) : Option String := p.segments.getLast?

def length (p : Path) : Nat := p.segments.length

def isRoot (p : Path) : Bool := p.segments.isEmpty

end Path

end TypedValues
