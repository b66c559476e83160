import ClonePrint.Yaml.Token

/-!
# YAML documents

A document is a tree of mappings and scalars. An alias stands for the node whose
anchor was met last, and no node may stand inside itself. A text may hold one
document at most.
-/
namespace ClonePrint.Yaml

structure Scalar where
  text : Text
  style : Style := .plain
  tag : Option Text := none
deriving Repr, DecidableEq

inductive Node where
  | scalar (s : Scalar)
  | mapping (entries : List (Node × Node))
deriving Repr

/-- What is not written at all. -/
def Node.empty : Node := .scalar { text := [] }

/-- What the rest of a document can refer to. The last anchor is the first in the list, and its
node is missing until it is complete. -/
structure Scope where
  handles : List (Text × Text) := []
  anchors : List (Text × Option Node) := []

/-- The handles that need no directive. -/
def standardHandles : List (Text × Text) :=
  [("!".toList, "!".toList), ("!!".toList, "tag:yaml.org,2002:".toList)]

def Scope.resolve? (handle rest : Text) (scope : Scope) : Option Text :=
  if handle.isEmpty then some rest
  else
    ((scope.handles ++ standardHandles).find? fun entry => entry.1 == handle).map fun entry =>
      entry.2 ++ rest

def Scope.bind (name : Option Text) (node : Option Node) (scope : Scope) : Scope :=
  match name with
  | none => scope
  | some name => { scope with anchors := (name, node) :: scope.anchors }

/-- What precedes a node. -/
structure Properties where
  anchor : Option Text := none
  tag : Option (Text × Text) := none
deriving Repr, DecidableEq

/-- Read the anchor and the tag of a node, at most one of each, in any order. -/
def Properties.take : List Token → Properties × List Token
  | .anchor name :: .tag handle rest :: more => (⟨some name, some (handle, rest)⟩, more)
  | .tag handle rest :: .anchor name :: more => (⟨some name, some (handle, rest)⟩, more)
  | .anchor name :: more => (⟨some name, none⟩, more)
  | .tag handle rest :: more => (⟨none, some (handle, rest)⟩, more)
  | tokens => ({}, tokens)

/-- Whether a node is missing in front of these tokens of a block. -/
def blockOmits : List Token → Bool
  | .key :: _ | .value :: _ | .blockEnd :: _ => true
  | _ => false

def flowOmits : List Token → Bool
  | .comma :: _ | .flowEnd :: _ => true
  | _ => false

mutual

/-- Read a node. A block can start a node only inside a block. -/
def node? : Nat → Bool → Scope → List Token → Option (Node × Scope × List Token)
  | 0, _, _, _ => none
  | _ + 1, _, scope, .aliasOf name :: more =>
      match scope.anchors.find? fun entry => entry.1 == name with
      | some (_, some node) => some (node, scope, more)
      | _ => none
  | fuel + 1, inBlock, scope, tokens => do
      let (properties, more) := Properties.take tokens
      let tag ←
        match properties.tag with
        | none => some none
        | some (handle, rest) => (scope.resolve? handle rest).map some
      let inner := scope.bind properties.anchor none
      let (node, scope, more) ←
        match more with
        | .scalar style text :: more =>
            let tag := if tag = some ['!'] then none else tag
            some (Node.scalar ⟨text, style, tag⟩, inner, more)
        | .flowStart :: more =>
            (flowEntries? fuel true inner more).map fun (entries, scope, more) =>
              (.mapping entries, scope, more)
        | .blockStart :: more =>
            if inBlock then
              (blockEntries? fuel inner more).map fun (entries, scope, more) =>
                (.mapping entries, scope, more)
            else none
        | more =>
            if properties = {} then none else some (.scalar { text := [], tag }, inner, more)
      return (node, scope.bind properties.anchor (some node), more)

def blockEntries? : Nat → Scope → List Token →
    Option (List (Node × Node) × Scope × List Token)
  | 0, _, _ => none
  | _ + 1, scope, .blockEnd :: more => some ([], scope, more)
  | fuel + 1, scope, .key :: more => do
      let (key, scope, more) ←
        if blockOmits more then some (.empty, scope, more) else node? fuel true scope more
      let (value, scope, more) ←
        match more with
        | .value :: more =>
            if blockOmits more then some (.empty, scope, more) else node? fuel true scope more
        | more => some (.empty, scope, more)
      let (entries, scope, more) ← blockEntries? fuel scope more
      return ((key, value) :: entries, scope, more)
  | _ + 1, _, _ => none

/-- Read the entries of a flow mapping up to its end. Between two of them stands
a comma; it may also stand behind the last one. -/
def flowEntries? : Nat → Bool → Scope → List Token →
    Option (List (Node × Node) × Scope × List Token)
  | 0, _, _, _ => none
  | _ + 1, _, scope, .flowEnd :: more => some ([], scope, more)
  | fuel + 1, first, scope, tokens => do
      let tokens ←
        if first then some tokens
        else
          match tokens with
          | .comma :: more => some more
          | _ => none
      match tokens with
      | .flowEnd :: more => return ([], scope, more)
      | .key :: more =>
          let (key, scope, more) ←
            match more with
            | .value :: _ => some (.empty, scope, more)
            | _ =>
                if flowOmits more then some (.empty, scope, more) else node? fuel false scope more
          let (value, scope, more) ←
            match more with
            | .value :: more =>
                if flowOmits more then some (.empty, scope, more) else node? fuel false scope more
            | more => some (.empty, scope, more)
          let (entries, scope, more) ← flowEntries? fuel false scope more
          return ((key, value) :: entries, scope, more)
      | tokens =>
          let (key, scope, more) ← node? fuel false scope tokens
          let (entries, scope, more) ← flowEntries? fuel false scope more
          return ((key, .empty) :: entries, scope, more)

end

/-- Read the directives in front of a document. There is at most one version, and
it is one of those that are understood; no handle is defined twice. -/
def directives? (seenVersion : Bool) (handles : List (Text × Text)) :
    List Token → Option (List (Text × Text) × List Token)
  | .version major minor :: more =>
      if seenVersion || major != 1 || (minor != 1 && minor != 2) then none
      else directives? true handles more
  | .handle name expansion :: more =>
      if handles.any fun entry => entry.1 == name then none
      else directives? seenVersion (handles ++ [(name, expansion)]) more
  | tokens => some (handles, tokens)

def documentOmits : List Token → Bool
  | [] => true
  | .version .. :: _ | .handle .. :: _ | .documentStart :: _ | .documentEnd :: _ => true
  | _ => false

/-- Read the one document of a stream of tokens, if there is any. -/
def document? (tokens : List Token) : Option (Option Node) :=
  let explicit :=
    match tokens with
    | .version .. :: _ | .handle .. :: _ | .documentStart :: _ => true
    | _ => false
  let fuel := 2 * tokens.length + 1
  let alone (more : List Token) : Bool := more.all (· == .documentEnd)
  if tokens.isEmpty then some none
  else if explicit then do
    let (handles, more) ← directives? false [] tokens
    match more with
    | .documentStart :: more => do
        let (node, _, more) ←
          if documentOmits more then some (Node.empty, ({} : Scope), more)
          else node? fuel true { handles } more
        if alone more then some (some node) else none
    | _ => none
  else do
    let (node, _, more) ← node? fuel true {} tokens
    if alone more then some (some node) else none

/-- Read a YAML text. The inner answer is missing if it holds no document. -/
def read? (t : Text) : Option (Option Node) := (tokens? t).bind document?

end ClonePrint.Yaml
