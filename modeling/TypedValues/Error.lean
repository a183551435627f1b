import TypedValues.Selector.Basic

/-!
Errors and their texts. An error is a cause: which rule was broken, by which symbol. Definition
errors, protocol violations and data errors are told apart, and only data errors collect the members
they were raised under.
-/

namespace TypedValues

inductive Violation where
  | unconstructed
  | alreadyConstructed
  | unconstructedOperand
  deriving DecidableEq

def Violation.message : Violation → String
  | unconstructed => "value is not constructed"
  | alreadyConstructed => "value is already constructed"
  | unconstructedOperand => "operand value is not constructed"

inductive SourceChange where
  | instantiate | addItem | setDefaultItem | addMember | setBase

def SourceChange.text : SourceChange → String
  | instantiate => "instantiate"
  | addItem => "add items to"
  | setDefaultItem => "set the default item of"
  | addMember => "add members to"
  | setBase => "set the base of"

inductive SchemaCause where
  | badName (fault : NameFault)
  | unknownAttribute (key : String) (kind : Kind)
  | attributeExpects (key what : String)
  | attributeOutside (key : String) (z : Int) (kind : IntKind)
  | attributeNotFinite (key : String)
  | attributeRepeated (key : String)
  | minAboveMax (min max : Literal)
  | aliasOf (source : Path) (change : SourceChange)
  | notTemplate (kind : Kind)
  | instantiatedTwice
  | notInstantiated
  | argumentNotType (index : Nat) (kind : Literal.Kind)
  | argumentCount (count : Nat)
  | alternativeCount (count : Nat)
  | alternativeRepeated (alternative : Path)
  | itemRepeated (name : String)
  | itemUnknown (name : String)
  | notEnum
  | noItems
  | memberRepeated (name : String)
  | memberInBase (name : String) (base : Path)
  | notStruct
  | baseRepeated
  | baseNotStruct (base : Path)
  | noBase
  | componentCount (count : Nat)
  | defaultUnconstructed
  | defaultMismatch (found expected : Path)
  | unknownScope
  | declared

def maxComponents : Nat := 4

def maxDecimals : Int := 17

def SchemaCause.message : SchemaCause → String
  | badName fault => fault.message
  | unknownAttribute a kind => s!"unknown attribute '{a}' for {kind.name} type"
  | attributeExpects a what => s!"attribute '{a}' expects {what}"
  | attributeOutside a z kind => s!"attribute '{a}' value {z} is out of the range of {kind.name}"
  | attributeNotFinite a => s!"attribute '{a}' must be finite"
  | attributeRepeated a => s!"attribute '{a}' is already set"
  | minAboveMax min max => s!"'min' ({min.shown}) is greater than 'max' ({max.shown})"
  | aliasOf source change => s!"cannot {change.text} an alias of '{source}'"
  | notTemplate kind => s!"{kind.name} type is not a template"
  | instantiatedTwice => "template is already instantiated"
  | notInstantiated => "template is not instantiated"
  | argumentNotType i kind => s!"argument {i}: expected type, got {kind.name} literal"
  | argumentCount n => s!"expected exactly one type argument, got {n}"
  | alternativeCount n => s!"variants need more than one type argument, got {n}"
  | alternativeRepeated p => s!"duplicate alternative '{p}'"
  | itemRepeated name => s!"enum item '{name}' is already declared"
  | itemUnknown name => s!"unknown enum item '{name}'"
  | notEnum => "only enum types have items"
  | noItems => "enum has no items"
  | memberRepeated name => s!"member '{name}' is already declared"
  | memberInBase name base => s!"member '{name}' is already declared by base '{base}'"
  | notStruct => "only struct types have members"
  | baseRepeated => "base struct is already set"
  | baseNotStruct base => s!"base '{base}' is not a struct"
  | noBase => "only struct types have a base"
  | componentCount n => s!"component count {n} is outside 1..={maxComponents}"
  | defaultUnconstructed => "default value is not constructed"
  | defaultMismatch found expected =>
    s!"default value of type '{found}' does not match member type '{expected}'"
  | unknownScope => "unknown scope"
  | declared => "name is already declared in this scope"

/-- Input that was offered to a value, as far as an error tells it. -/
inductive Offer where
  | type (p : Path)
  | item (p : Path)
  | literalKind (kind : Literal.Kind)
  | literal (l : Literal)
  | value (p : Path)
  | itemInput (p : Path)
  | expression (p : Path)
  | list (length : Nat)

def Offer.text : Offer → String
  | type p | item p => p.text
  | literalKind kind => s!"{kind.name} literal"
  | literal l => s!"{l.kind.name} literal {l.shown}"
  | value p => s!"value of '{p}'"
  | itemInput p => s!"enum item '{p}'"
  | expression p => s!"expression of '{p}'"
  | list n => s!"initializer list of {n} entries"

/-- Why a selector has no meaning as text. -/
inductive SelectorFault where
  | unclosed
  | badIndex
  | noSeparator
  | emptyName

def SelectorFault.message : SelectorFault → String
  | unclosed => "missing ']'"
  | badIndex => "index is not an unsigned integer"
  | noSeparator => "expected '.' or '['"
  | emptyName => "empty member name"

inductive StepFault where
  | emptyOptional
  | noMember (name : String)
  | length (n : Nat)
  | active (type : Path)
  | kind (k : Kind)

def StepFault.message : StepFault → String
  | emptyOptional => "optional is empty"
  | noMember name => s!"no member '{name}'"
  | length n => s!"length is {n}"
  | active type => s!"active alternative is '{type}'"
  | kind k => s!"value is a {k.name}"

inductive DocumentKind where
  | null | boolean | number | string | array | object

def DocumentKind.text : DocumentKind → String
  | null => "null"
  | boolean => "a boolean"
  | number => "a number"
  | string => "a string"
  | array => "an array"
  | object => "an object"

inductive Expectation where
  | scalar | itemName | object | array

def Expectation.text : Expectation → String
  | scalar => "a scalar"
  | itemName => "an enum item name"
  | object => "an object"
  | array => "an array"

inductive TextSort where
  | boolean | integer | number

def TextSort.text : TextSort → String
  | boolean => "a boolean"
  | integer => "an integer"
  | number => "a number"

inductive DataCause where
  | intOutside (z lo hi : Int)
  | realOutside (v lo hi : Real64)
  | notFinite (v : Real64)
  | components (expected : Nat) (found : Literal)
  | noAlternativeForList (length : Nat)
  | noAlternativeFor (l : Literal)
  | notSingle (length : Nat)
  | noDefaultItem
  | needsItem (l : Literal)
  | unknownMember (name : String)
  | tooMany (members : Nat)
  | initializedTwice (name : String)
  | expected (what : Expectation) (found : DocumentKind)
  | unknownItem (name : String)
  | missingKey (key : String)
  | noAlternativeNamed (name : String)
  | intNotEncodable (z : Int)
  | realNotEncodable (v : Real64)
  | itemIndex
  | variantIndex
  | noMemberAt (index : Nat)
  | noMember (name : String)
  | indexOutside (index length : Nat)
  | noAlternativeAt (index : Nat)
  | constantUnconstructed
  | selector (fault : SelectorFault)
  | step (s : Step) (fault : StepFault)
  | selectionChanged
  | kindMismatch (selector : Selector) (found expected : Kind)
  | unreadable (text : String) (wanted : TextSort)
  | host (message : String)

def DataCause.message : DataCause → String
  | intOutside z lo hi => s!"value {z} is out of range [{lo}, {hi}]"
  | realOutside v lo hi => s!"value {v.text} is out of range [{lo.text}, {hi.text}]"
  | notFinite v => s!"value {v.text} is not finite"
  | components n l => s!"expected a list of {n} components, got {l.shown}"
  | noAlternativeForList n => s!"no alternative accepts a list of {n} initializers"
  | noAlternativeFor l => s!"no alternative accepts {l.kind.name} literal {l.shown}"
  | notSingle n => s!"expected a single initializer, got {n}"
  | noDefaultItem => "enum has no default item"
  | needsItem l => s!"enum values need an enum item, not {l.kind.name} literal {l.shown}"
  | unknownMember name => s!"unknown member '{name}'"
  | tooMany n => s!"too many initializers for {n} member(s)"
  | initializedTwice name => s!"member '{name}' is initialized twice"
  | expected what found => s!"expected {what.text}, got {found.text}"
  | unknownItem name => s!"unknown enum item '{name}'"
  | missingKey key => s!"missing '{key}' key"
  | noAlternativeNamed name => s!"no alternative named '{name}'"
  | intNotEncodable z => s!"{z} cannot be encoded"
  | realNotEncodable v => s!"{v.text} cannot be encoded"
  | itemIndex => "enum item index out of range"
  | variantIndex => "variant index out of range"
  | noMemberAt i => s!"no member at index {i}"
  | noMember name => s!"no member '{name}'"
  | indexOutside i n => s!"index {i} is out of range (length {n})"
  | noAlternativeAt i => s!"no alternative at index {i}"
  | constantUnconstructed => "constant expressions need a constructed value"
  | selector fault => s!"invalid selector: {fault.message}"
  | step s fault => s!"cannot select {s.inspect}: {fault.message}"
  | selectionChanged => "selection changed while stepping"
  | kindMismatch s found wanted =>
    s!"'{s.shown}' selects a {found.name}, expected a {wanted.name}"
  | unreadable text wanted => s!"'{text}' is not {wanted.text}"
  | host message => message

/-- An operation that only some kinds of values have. -/
inductive Operation where
  | asBool | asInt | asInts | asReal | asReals | asText | enumItem | members | optionalValue
  | variantIndex | variantValue | setActiveAlternative | elements | insertDefault | uiText

def Operation.text : Operation → String
  | asBool => "as_bool"
  | asInt => "as_int"
  | asInts => "as_ints"
  | asReal => "as_real"
  | asReals => "as_reals"
  | asText => "as_str"
  | enumItem => "enum_item"
  | members => "members"
  | optionalValue => "optional_value"
  | variantIndex => "variant_index"
  | variantValue => "variant_value"
  | setActiveAlternative => "set_active_alternative"
  | elements => "elements"
  | insertDefault => "insert_default"
  | uiText => "ui strings"

inductive Subject where
  | path (p : Path)
  | scope (id : ScopeId)
  | text (s : String)

def Subject.shown : Subject → String
  | path p => p.text
  | scope id => s!"scope #{id}"
  | text s => s

/-- A place inside the input under which an error arose. -/
inductive Site where
  | member (p : Path)
  | element (index : Nat)

def Site.text : Site → String
  | member p => p.text
  | element i => s!"[{i}]"

inductive Error where
  | schema (subject : Subject) (cause : SchemaCause)
  | state (path : Path) (violation : Violation)
  | incompatible (expected : Path) (found : Offer)
  /-- The sites are those of the input around the fault, the nearest first. -/
  | data (subject : Subject) (cause : DataCause) (sites : List Site)
  | notSupported (path : Path) (operation : Operation)

namespace Error

/-- The broad categories of errors: of definitions, of protocol, of data. -/
inductive Category where
  | schema | state | data
  deriving DecidableEq

def category : Error → Category
  | schema .. => .schema
  | state .. => .state
  | _ => .data

def dataAt (path : Path) (cause : DataCause) : Error := .data (.path path) cause []

def schemaAt (path : Path) (cause : SchemaCause) : Error := .schema (.path path) cause

/-- Only data errors tell the member or element they were raised under. -/
def within (site : Site) : Error → Error
  | data subject cause sites => .data subject cause (sites ++ [site])
  | e => e

def message : Error → String
  | schema subject cause => s!"schema error in '{subject.shown}': {cause.message}"
  | state path violation => s!"contract violation on '{path}': {violation.message}"
  | incompatible expected found => s!"cannot initialize a '{expected}' with a '{found.text}'"
  | data subject cause sites =>
    let context := String.join (sites.map fun s => s!" (in member '{s.text}')")
    s!"'{subject.shown}': {cause.message}{context}"
  | notSupported path operation => s!"'{path}' does not support {operation.text}"

end Error

def underSite {α : Type} (site : Site) (r : Except Error α) : Except Error α :=
  r.mapError (·.within site)

end TypedValues
