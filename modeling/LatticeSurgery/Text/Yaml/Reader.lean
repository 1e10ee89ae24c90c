import LatticeSurgery.Text.Yaml.Token

namespace LatticeSurgery.Text.Yaml

/-! Reading a document from its tokens. While it is read, the names of anchors and
tag handles that have been seen are known. -/

structure Reading where
  tokens : List Token
  anchors : List (String × Nat)
  anchored : List (Nat × Anchored)
  handles : List (String × Tag)

abbrev Read := StateT Reading Option

namespace Read

def peek : Read (Option Token) := do return (← get).tokens.head?

def skip : Read Unit := modify fun reading => { reading with tokens := reading.tokens.drop 1 }

def expect (token : Token) : Read Unit := do
  if (← peek) = some token then skip else failure

def nextIs (tokens : List Token) : Read Bool := do
  return (← peek).any (· ∈ tokens)

/-! Anchors and tags in front of a node. -/

def anchor? : Read (Option String) := do
  match ← peek with
  | some (.anchor name) => do
      skip
      return some name
  | _ => return none

/-- The tag that a handle and the text behind it stand for. -/
def resolve (tag : TagToken) : Read Tag := do
  if tag.handle = "" then return tag.text
  match (← get).handles.lookup tag.handle with
  | some stem => return stem ++ tag.text
  | none => failure

def tag? : Read (Option Tag) := do
  match ← peek with
  | some (.tag tag) => do
      skip
      return some (← resolve tag)
  | _ => return none

/-- An anchor has as its number how many different names came before it. A name that
comes again stands for its latest anchor, whose number the next name can share. -/
def remember (name : Option String) (target : Anchored) : Read Unit :=
  match name with
  | some name => modify fun reading =>
      let number := reading.anchors.length
      { reading with
        anchors := (name, number) :: reading.anchors.filter fun known => known.1 ≠ name
        anchored := (number, target) :: reading.anchored }
  | none => pure ()

def scalar (name : Option String) (written : Scalar) : Read Yaml := do
  remember name (.scalar written)
  return .scalar written

def aliased (name : String) : Read Yaml := do
  match (← get).anchors.lookup name with
  | some anchor => return .reference anchor
  | none => failure

/-! Nodes. A node in lines may be a collection in lines, and where `items` holds it
may be a sequence whose dashes stand at the column of the enclosing mapping. -/

mutual

def node : (fuel : Nat) → (lines items : Bool) → Read Yaml
  | 0, _, _ => failure
  | fuel + 1, lines, items => do
      if let some (.aliasOf name) ← peek then
        skip
        return ← aliased name
      let first ← anchor?
      let tag ← tag?
      let name ← if first.isSome then pure first else anchor?
      match ← peek with
      | some (.scalar style content) =>
          skip
          scalar name ⟨style, tag, content⟩
      | some .flowSequenceStart =>
          skip
          remember name .collection
          return .sequence (← flowItems fuel true)
      | some .flowMappingStart =>
          skip
          remember name .collection
          return .mapping (← flowEntries fuel true)
      | some .blockEntry =>
          if items then
            remember name .collection
            return .sequence (← looseItems fuel)
          else empty name tag
      | some .blockSequenceStart =>
          if lines then
            skip
            remember name .collection
            return .sequence (← blockItems fuel)
          else empty name tag
      | some .blockMappingStart =>
          if lines then
            skip
            remember name .collection
            return .mapping (← blockEntries fuel)
          else empty name tag
      | _ => empty name tag

/-- A node of an anchor or tag alone. -/
def empty (name : Option String) (tag : Option Tag) : Read Yaml :=
  if name.isSome || tag.isSome then scalar name ⟨.plain, tag, ""⟩ else failure

/-- A node, or nothing when one of some tokens follows at once. -/
def nodeUnless : (fuel : Nat) → (lines items : Bool) → (stops : List Token) → Read Yaml
  | 0, _, _, _ => failure
  | fuel + 1, lines, items, stops => do
      if ← nextIs stops then return absent else node fuel lines items

/-- The value behind a colon, or nothing without one. -/
def valueUnless : (fuel : Nat) → (lines : Bool) → (stops : List Token) → Read Yaml
  | 0, _, _ => failure
  | fuel + 1, lines, stops => do
      if ← nextIs [.value] then
        skip
        nodeUnless fuel lines lines stops
      else return absent

def blockItems : (fuel : Nat) → Read (List Yaml)
  | 0 => failure
  | fuel + 1 => do
      if ← nextIs [.blockEntry] then
        skip
        let item ← nodeUnless fuel true false [.blockEntry, .blockEnd]
        return item :: (← blockItems fuel)
      else
        expect .blockEnd
        return []

def looseItems : (fuel : Nat) → Read (List Yaml)
  | 0 => failure
  | fuel + 1 => do
      if ← nextIs [.blockEntry] then
        skip
        let item ← nodeUnless fuel true false [.blockEntry, .key, .value, .blockEnd]
        return item :: (← looseItems fuel)
      else return []

def blockEntries : (fuel : Nat) → Read (List (Yaml × Yaml))
  | 0 => failure
  | fuel + 1 => do
      if ← nextIs [.key] then
        skip
        let stops := [Token.key, .value, .blockEnd]
        let key ← nodeUnless fuel true true stops
        let value ← valueUnless fuel true stops
        return (key, value) :: (← blockEntries fuel)
      else
        expect .blockEnd
        return []

/-- The items between brackets. A comma stands in front of every item but the first
and may stand behind the last. An item with a colon is a mapping of one entry. -/
def flowItems : (fuel : Nat) → (first : Bool) → Read (List Yaml)
  | 0, _ => failure
  | fuel + 1, first => do
      if ← nextIs [.flowSequenceEnd] then
        skip
        return []
      if !first then expect .flowEntry
      if ← nextIs [.flowSequenceEnd] then
        skip
        return []
      let item ← if ← nextIs [.key] then
          skip
          pairItem fuel
        else node fuel false false
      return item :: (← flowItems fuel false)

/-- A missing key of a pair takes the place of the token behind it. -/
def pairItem : (fuel : Nat) → Read Yaml
  | 0 => failure
  | fuel + 1 => do
      let stops := [Token.flowEntry, .flowSequenceEnd]
      let key ← if ← nextIs (.value :: stops) then
          skip
          pure absent
        else node fuel false false
      let value ← valueUnless fuel false stops
      return .mapping [(key, value)]

def flowEntries : (fuel : Nat) → (first : Bool) → Read (List (Yaml × Yaml))
  | 0, _ => failure
  | fuel + 1, first => do
      if ← nextIs [.flowMappingEnd] then
        skip
        return []
      if !first then expect .flowEntry
      if ← nextIs [.flowMappingEnd] then
        skip
        return []
      let stops := [Token.flowEntry, .flowMappingEnd]
      let entry ← if ← nextIs [.key] then
          skip
          let key ← nodeUnless fuel false false (.value :: stops)
          pure (key, ← valueUnless fuel false stops)
        else pure (← node fuel false false, absent)
      return entry :: (← flowEntries fuel false)

end

/-! Documents. A stream has to hold at most one of them. -/

def isDirective : Token → Bool
  | .directive _ => true
  | _ => false

def directivesOf : List Token → List Directive
  | .directive directive :: tokens => directive :: directivesOf tokens
  | _ => []

def isVersion : Directive → Bool
  | .version .. => true
  | .tag .. => false

def isKnownVersion : Directive → Bool
  | .version major minor => major = 1 && (minor = 1 || minor = 2)
  | .tag .. => true

def handleOf : Directive → Option (String × Tag)
  | .version .. => none
  | .tag handle stem => some (handle, stem)

def defaultHandles : List (String × Tag) :=
  [("!", markTag), ("!!", Tag.ofText "tag:yaml.org,2002:")]

/-- Directives give at most one version and no handle twice. -/
def directives : Read Unit := do
  let found := directivesOf (← get).tokens
  let handles := found.filterMap handleOf
  let names := handles.map Prod.fst
  if !found.all isKnownVersion || 1 < (found.filter isVersion).length then failure
  if names.eraseDups.length ≠ names.length then failure
  modify fun reading => { reading with
    tokens := reading.tokens.drop found.length
    handles := handles ++ defaultHandles }

def contentStops (token : Token) : Bool :=
  isDirective token || token = .documentStart || token = .documentEnd

/-- The document of a stream, which is empty in an empty stream. -/
def document (fuel : Nat) : Read Document := do
  match ← peek with
  | none => return Document.empty
  | some token =>
      let explicit := isDirective token || token = .documentStart
      directives
      if explicit then expect .documentStart
      let content ← match ← peek with
        | none => if explicit then pure absent else failure
        | some token =>
            if explicit && contentStops token then pure absent else node fuel true false
      modify fun reading => { reading with tokens := reading.tokens.dropWhile (· = .documentEnd) }
      if (← peek).isSome then failure
      return ⟨content, (← get).anchored⟩

end Read

def parse? (source : String) : Option Document := do
  let tokens ← tokens? source
  return (← (Read.document (8 * tokens.length + 8)).run ⟨tokens, [], [], []⟩).1

end LatticeSurgery.Text.Yaml
