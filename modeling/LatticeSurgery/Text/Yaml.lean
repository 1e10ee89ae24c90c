namespace LatticeSurgery.Text

/-! The values of a YAML document. A scalar remembers how it is written and the tag
in front of it, as octets. An alias is a reference to a numbered anchor. -/

namespace Yaml

inductive Style where
  | plain
  | quoted
  | literal
  | folded
deriving Repr, DecidableEq

abbrev Tag := List UInt8

def Tag.ofText (source : String) : Tag := source.toUTF8.toList

/-- The name in a tag that starts with an exclamation mark. -/
def Tag.localName? (tag : Tag) : Option String :=
  if tag.head? = some 33 then String.fromUTF8? ⟨(tag.drop 1).toArray⟩ else none

structure Scalar where
  style : Style
  tag : Option Tag
  content : String
deriving Repr, DecidableEq

namespace Scalar

/-- What stands where nothing is written. -/
def absent : Scalar := ⟨.plain, none, ""⟩

def localName? (scalar : Scalar) : Option String := scalar.tag.bind Tag.localName?

def isNull (scalar : Scalar) : Bool :=
  scalar.style = .plain && scalar.content ∈ ["", "~", "null", "Null", "NULL"]

def boolTag : Tag := Tag.ofText "tag:yaml.org,2002:bool"

/-- Truth values are written plainly, or as a literal block with their own tag. -/
def truth? (scalar : Scalar) : Option Bool :=
  if scalar.style = .plain || (scalar.style = .literal && scalar.tag = some boolTag) then
    if scalar.content ∈ ["true", "True", "TRUE"] then some true
    else if scalar.content ∈ ["false", "False", "FALSE"] then some false
    else none
  else none

/-- A name is written as the content, or as a tag in front of a null. -/
def name? (scalar : Scalar) : Option String :=
  match scalar.localName? with
  | some name => if scalar.isNull then some name else none
  | none => some scalar.content

end Scalar

end Yaml

inductive Yaml where
  | scalar (written : Yaml.Scalar)
  | sequence (items : List Yaml)
  | mapping (entries : List (Yaml × Yaml))
  | reference (anchor : Nat)
deriving Repr, Inhabited

namespace Yaml

def absent : Yaml := .scalar Scalar.absent

/-- What stands behind an anchor. Only scalars are looked up again. -/
inductive Anchored where
  | scalar (written : Scalar)
  | collection
deriving Repr, DecidableEq

/-- The content of a document and what stands behind its anchors, of which the
latest comes first. Several of them can have the same number. -/
structure Document where
  content : Yaml
  anchored : List (Nat × Anchored)
deriving Repr

namespace Document

/-- A document without content. -/
def empty : Document := ⟨Yaml.absent, []⟩

/-- The scalar that stands here, or at the anchor to which this refers. -/
def scalar? (document : Document) : Yaml → Option Scalar
  | .scalar written => some written
  | .reference anchor =>
      match document.anchored.lookup anchor with
      | some (.scalar written) => some written
      | _ => none
  | _ => none

end Document

end Yaml

end LatticeSurgery.Text
