import TypedValues.Number.Reading
import TypedValues.Selector.Basic
import TypedValues.Error

/-!
Reading selectors: an optional leading name, then names behind points and positions in brackets.
Blanks around a name or a position do not count. Steps into variants have no text to be read from.
-/

namespace TypedValues.Selector

def nameStep (cs : List Char) : Except SelectorFault Step :=
  let name := Text.trim cs
  if name.isEmpty then .error .emptyName else .ok (.member (String.ofList name))

def indexStep (cs : List Char) : Except SelectorFault Step :=
  match Reading.position? (Text.trim cs) with
  | some i => .ok (.index i)
  | none => .error .badIndex

mutual

def readSteps (cs : List Char) : Except SelectorFault Selector :=
  match cs with
  | [] => .ok []
  | c :: rest =>
    if c = '.' then readName [] rest
    else if c = '[' then readIndex [] rest
    else .error .noSeparator
termination_by structural cs

/-- Reads on inside a name, of which `name` has been read. -/
def readName (name cs : List Char) : Except SelectorFault Selector :=
  match cs with
  | [] => return [← nameStep name]
  | c :: rest =>
    if c = '.' then do
      let s ← nameStep name
      return s :: (← readName [] rest)
    else if c = '[' then do
      let s ← nameStep name
      return s :: (← readIndex [] rest)
    else readName (name ++ [c]) rest
termination_by structural cs

def readIndex (index cs : List Char) : Except SelectorFault Selector :=
  match cs with
  | [] => .error .unclosed
  | c :: rest =>
    if c = ']' then do
      let s ← indexStep index
      return s :: (← readSteps rest)
    else readIndex (index ++ [c]) rest
termination_by structural cs

end

/-- The first step is a name or a position. -/
def read (cs : List Char) : Except SelectorFault Selector :=
  match cs with
  | [] => .ok []
  | c :: rest => if c = '[' then readIndex [] rest else readName [] (c :: rest)

/-- Reads a selector; the empty text addresses the value itself. -/
def parse (text : String) : Except Error Selector :=
  match read (Text.trim text.toList) with
  | .ok s => .ok s
  | .error fault => .error (.data (.text text) (.selector fault) [])

end TypedValues.Selector
