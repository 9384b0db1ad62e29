import Lox.Yaml.Token

/-!
# The nodes of a document

A node is a scalar, a list or a mapping, together with the kind of thing that its tag
or its form says it is. Names of earlier nodes are already replaced by what they
stand for, so that a document is a tree.
-/

namespace Lox
namespace Yaml

/-- What a node stands for. -/
inductive Kind where
  | null | bool | int | real | text | moment | list | mapping
  /-- The key under which a mapping takes over the entries of others. -/
  | merge
  /-- The sign for a default value. -/
  | default
  /-- A kind that settings cannot have. -/
  | other
deriving DecidableEq, Repr

namespace Kind

/-- What the full names of the common tags begin with. -/
def common : String := "tag:yaml.org,2002:"

/-- The kinds by the ends of the names of their tags. -/
def names : List (String × Kind) :=
  [("null", null), ("bool", bool), ("int", int), ("float", real), ("str", text),
   ("timestamp", moment), ("seq", list), ("map", mapping), ("merge", merge), ("value", default)]

/-- The kind that a tag with this full name asks for. -/
def ofTag (full : String) : Kind :=
  match names.find? fun (name, _) => common ++ name == full with
  | some (_, kind) => kind
  | none => other

/-- The kind that the form of a plain scalar shows. -/
def ofForm : Option Scalar.Form → Kind
  | none => text
  | some .null => null
  | some (.bool _) => bool
  | some (.int _ _ _) => int
  | some (.sexagesimal _ isReal _) => if isReal then real else int
  | some (.real _ _ _) => real
  | some (.infinity _) => real
  | some .notANumber => real
  | some (.moment _) => moment
  | some .merge => merge
  | some .default => default

end Kind

inductive Node where
  | scalar (kind : Kind) (text : String)
  | list (kind : Kind) (items : List Node)
  | mapping (kind : Kind) (entries : List (Node × Node))

namespace Node

/-- What stands where nothing is written. -/
def empty : Node :=
  .scalar .null ""

/-- A scalar, with a tag or without one. A tag that says nothing has a scalar taken as
if it were plain. -/
def ofScalar (tag : Option String) (plain : Bool) (text : String) : Node :=
  match tag with
  | none => .scalar (if plain then Kind.ofForm (Scalar.form? text) else .text) text
  | some "!" => .scalar (Kind.ofForm (Scalar.form? text)) text
  | some tag => .scalar (Kind.ofTag tag) text

/-- The kind of a list or mapping, with a tag or without one. -/
def collectionKind (usual : Kind) : Option String → Kind
  | none => usual
  | some "!" => usual
  | some tag => Kind.ofTag tag

end Node

/-! ## From tokens to nodes -/

/-- The tokens that are left, and what names and handles mean. -/
structure Reading where
  tokens : List Token
  /-- The nodes that have a name. -/
  anchors : List (String × Node) := []
  /-- The beginnings of tags that handles stand for. -/
  handles : List (String × String)

namespace Reading

/-- The reading after the first token. -/
def skip (r : Reading) : Reading :=
  { r with tokens := r.tokens.drop 1 }

/-- The name before a node, if there is one. -/
def name? (r : Reading) : Option String × Reading :=
  match r.tokens with
  | .anchor name :: rest => (some name, { r with tokens := rest })
  | _ => (none, r)

/-- The full name of the tag before a node, if there is one. -/
def tag? (r : Reading) : Option (Option String × Reading) :=
  match r.tokens with
  | .tag none full :: rest => some (some full, { r with tokens := rest })
  | .tag (some handle) text :: rest =>
    (r.handles.lookup handle).map fun first => (some (first ++ text), { r with tokens := rest })
  | _ => some (none, r)

/-- The name and the tag before a node, in either order. -/
def properties (r : Reading) : Option (Option String × Option String × Reading) := do
  let (name, r) := r.name?
  let (tag, r) ← r.tag?
  if name.isSome then some (name, tag, r)
  else
    let (name, r) := r.name?
    some (name, tag, r)

/-- A node gets its name, which no other node may have. -/
def named (name : Option String) (node : Node) (r : Reading) : Option (Node × Reading) :=
  match name with
  | none => some (node, r)
  | some name =>
    if (r.anchors.lookup name).isSome then none
    else some (node, { r with anchors := (name, node) :: r.anchors })

end Reading

mutual

/-- Reads a node. In brackets there are no blocks; the value of a key in block style may
be a list whose dashes stand in the column of the key. -/
def node : Nat → (block level : Bool) → Reading → Option (Node × Reading)
  | 0, _, _, _ => none
  | n + 1, block, level, r =>
    match r.tokens with
    | .alias name :: _ => (r.anchors.lookup name).map fun node => (node, r.skip)
    | _ => do
      let (name, tag, r) ← r.properties
      let (node, r) ← content n block level (name.isSome || tag.isSome) tag r
      r.named name node

/-- Reads a node after its name and its tag; if it has one of them, it may be empty. -/
def content : Nat → (block level marked : Bool) → (tag : Option String) → Reading →
    Option (Node × Reading)
  | 0, _, _, _, _, _ => none
  | n + 1, block, level, marked, tag, r =>
    match r.tokens with
    | .scalar plain text :: _ => some (Node.ofScalar tag plain text, r.skip)
    | .openList :: _ =>
      (flowItems n r.skip).map fun (items, r) => (.list (Node.collectionKind .list tag) items, r)
    | .openMapping :: _ =>
      (flowEntries n r.skip).map fun (entries, r) =>
        (.mapping (Node.collectionKind .mapping tag) entries, r)
    | t :: _ =>
      if t = .item ∧ level then
        (levelItems n r).map fun (items, r) => (.list (Node.collectionKind .list tag) items, r)
      else if t = .openBlockList ∧ block then
        (blockItems n r.skip).map fun (items, r) =>
          (.list (Node.collectionKind .list tag) items, r)
      else if t = .openBlockMapping ∧ block then
        (blockEntries n r.skip).map fun (entries, r) =>
          (.mapping (Node.collectionKind .mapping tag) entries, r)
      else if marked then some (Node.ofScalar tag true "", r)
      else none
    | [] => if marked then some (Node.ofScalar tag true "", r) else none

/-- Reads a node, which may be missing before certain tokens. -/
def nodeUnless : Nat → (block level : Bool) → (before : List Token) → Reading →
    Option (Node × Reading)
  | 0, _, _, _, _ => none
  | n + 1, block, level, before, r =>
    if r.tokens.head?.any before.contains then some (.empty, r) else node n block level r

/-- Reads the value of a key, which may be missing together with its colon. -/
def valueUnless : Nat → (block : Bool) → (before : List Token) → Reading →
    Option (Node × Reading)
  | 0, _, _, _ => none
  | n + 1, block, before, r =>
    if r.tokens.head? = some .value then nodeUnless n block block before r.skip
    else some (.empty, r)

/-- Reads the items of a list in brackets. -/
def flowItems : Nat → Reading → Option (List Node × Reading)
  | 0, _ => none
  | n + 1, r =>
    match r.tokens with
    | .closeList :: _ => some ([], r.skip)
    | t :: _ => do
      let (item, r) ←
        if t = .key then do
          let (key, r) ← nodeUnless n false false [.value, .comma, .closeList] r.skip
          let (value, r) ← valueUnless n false [.comma, .closeList] r
          some (Node.mapping .mapping [(key, value)], r)
        else node n false false r
      match r.tokens with
      | .comma :: _ => (flowItems n r.skip).map fun (items, r) => (item :: items, r)
      | .closeList :: _ => some ([item], r.skip)
      | _ => none
    | [] => none

/-- Reads the entries of a mapping in brackets. -/
def flowEntries : Nat → Reading → Option (List (Node × Node) × Reading)
  | 0, _ => none
  | n + 1, r =>
    match r.tokens with
    | .closeMapping :: _ => some ([], r.skip)
    | t :: _ => do
      let (entry, r) ←
        if t = .key then do
          let (key, r) ← nodeUnless n false false [.value, .comma, .closeMapping] r.skip
          let (value, r) ← valueUnless n false [.comma, .closeMapping] r
          some ((key, value), r)
        else (node n false false r).map fun (key, r) => ((key, .empty), r)
      match r.tokens with
      | .comma :: _ => (flowEntries n r.skip).map fun (entries, r) => (entry :: entries, r)
      | .closeMapping :: _ => some ([entry], r.skip)
      | _ => none
    | [] => none

/-- Reads the items of a list in a block of its own. -/
def blockItems : Nat → Reading → Option (List Node × Reading)
  | 0, _ => none
  | n + 1, r =>
    match r.tokens with
    | .item :: _ => do
      let (item, r) ← nodeUnless n true false [.item, .closeBlock] r.skip
      let (items, r) ← blockItems n r
      some (item :: items, r)
    | .closeBlock :: _ => some ([], r.skip)
    | _ => none

/-- Reads the items of a list whose dashes stand in the column of a key. -/
def levelItems : Nat → Reading → Option (List Node × Reading)
  | 0, _ => none
  | n + 1, r =>
    match r.tokens with
    | .item :: _ => do
      let (item, r) ← nodeUnless n true false [.item, .key, .value, .closeBlock] r.skip
      let (items, r) ← levelItems n r
      some (item :: items, r)
    | _ => some ([], r)

/-- Reads the entries of a mapping in a block. -/
def blockEntries : Nat → Reading → Option (List (Node × Node) × Reading)
  | 0, _ => none
  | n + 1, r =>
    match r.tokens with
    | .key :: _ => do
      let (key, r) ← nodeUnless n true true [.key, .value, .closeBlock] r.skip
      let (value, r) ← valueUnless n true [.key, .value, .closeBlock] r
      let (entries, r) ← blockEntries n r
      some ((key, value) :: entries, r)
    | .closeBlock :: _ => some ([], r.skip)
    | _ => none

end

/-! ## Documents -/

/-- The handles that every document has. -/
def usualHandles : List (String × String) :=
  [("!", "!"), ("!!", Kind.common)]

/-- Reads what is said about a document before its first marker: the handles it
introduces, and the tokens from that marker on. The version may be given once. -/
def directives : (versioned : Bool) → (handles : List (String × String)) → List Token →
    Option (List (String × String) × List Token)
  | versioned, handles, .directive d :: rest =>
    match d with
    | .version major => if versioned || major != 1 then none else directives true handles rest
    | .shorthand handle full =>
      if (handles.lookup handle).isSome then none
      else directives versioned (handles ++ [(handle, full)]) rest
    | .other => directives versioned handles rest
  | _, handles, rest => some (handles, rest)

/-- Does something stand here that belongs to no document? -/
def isOuter : Token → Bool
  | .directive _ => true
  | .documentStart => true
  | .documentEnd => true
  | _ => false

/-- Reads the only document of a text; a text without any holds nothing. -/
def document (tokens : List Token) : Option Node := do
  let fuel := 4 * tokens.length + 8
  let (node, r) ←
    match tokens with
    | [] => some (Node.empty, { tokens := [], handles := [] })
    | .directive _ :: _ => marked fuel
    | .documentStart :: _ => marked fuel
    | _ => node fuel true false { tokens, handles := usualHandles }
  if (r.tokens.dropWhile (· = .documentEnd)).isEmpty then some node else none
where
  /-- Reads a document after its marker. -/
  marked (fuel : Nat) : Option (Node × Reading) := do
    let (handles, rest) ← directives false [] tokens
    match rest with
    | .documentStart :: rest =>
      let r : Reading := { tokens := rest, handles := handles ++ usualHandles }
      if rest.head?.all isOuter then some (.empty, r) else node fuel true false r
    | _ => none

end Yaml
end Lox
