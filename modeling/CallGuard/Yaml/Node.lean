import CallGuard.Yaml.Token
set_option autoImplicit false

/-!
# YAML nodes

The document that a token list stands for. Where a node may be left out an empty plain scalar
stands for it. A text holds one document or none.
-/
namespace CallGuard.Yaml

inductive Node where
  | scalar (plain : Bool) (text : Text)
  | list (items : List Node)
  | map (entries : List (Node × Node))

namespace Node

def empty : Node := .scalar true []

def endsEntry : Token → Bool
  | .entry | .key | .value | .blockEnd => true
  | _ => false

def endsBlockItem : Token → Bool
  | .entry | .blockEnd => true
  | _ => false

def endsBlockPart : Token → Bool
  | .key | .value | .blockEnd => true
  | _ => false

def endsFlowItem : Token → Bool
  | .value | .comma | .flowSequenceEnd => true
  | _ => false

def endsFlowPart : Token → Bool
  | .value | .comma | .flowMappingEnd => true
  | _ => false

def afterComma (isFirst : Bool) (close : Token) (ts : List Token) : Except Fault (List Token) :=
  match ts with
  | t :: rest =>
    if isFirst || t = close then .ok ts
    else if t = .comma then .ok rest
    else .error .unexpectedToken
  | [] => .error .unexpectedToken

mutual

/-- Reads a node. In block style a list may stand in the column of the key it belongs to. -/
def read (block underKey : Bool) : Nat → List Token → Except Fault (Node × List Token)
  | 0, _ => .error .unexpectedToken
  | turns + 1, ts => do
    match ts with
    | .scalar plain t :: ts => return (scalar plain t, ts)
    | .flowSequence :: ts =>
      let (items, ts) ← readFlowList true turns ts
      return (list items, ts)
    | .flowMapping :: ts =>
      let (entries, ts) ← readFlowMap true turns ts
      return (map entries, ts)
    | .blockSequence :: ts =>
      if !block then throw .unexpectedToken
      let (items, ts) ← readList turns ts
      return (list items, ts)
    | .blockMapping :: ts =>
      if !block then throw .unexpectedToken
      let (entries, ts) ← readMap turns ts
      return (map entries, ts)
    | .entry :: _ =>
      if !underKey then throw .unexpectedToken
      let (items, ts) ← readEntries turns ts
      return (list items, ts)
    | _ => throw .unexpectedToken

def readOr (ends : Token → Bool) (block underKey : Bool) :
    Nat → List Token → Except Fault (Node × List Token)
  | 0, _ => .error .unexpectedToken
  | turns + 1, ts => if ts.head?.any ends then .ok (empty, ts) else read block underKey turns ts

def readValue (ends : Token → Bool) (block underKey : Bool) :
    Nat → List Token → Except Fault (Node × List Token)
  | 0, _ => .error .unexpectedToken
  | turns + 1, ts =>
    match ts with
    | .value :: ts => readOr ends block underKey turns ts
    | _ => .ok (empty, ts)

def readList : Nat → List Token → Except Fault (List Node × List Token)
  | 0, _ => .error .unexpectedToken
  | turns + 1, ts => do
    match ts with
    | .blockEnd :: ts => return ([], ts)
    | .entry :: ts =>
      let (item, ts) ← readOr endsBlockItem true false turns ts
      let (items, ts) ← readList turns ts
      return (item :: items, ts)
    | _ => throw .unexpectedToken

def readEntries : Nat → List Token → Except Fault (List Node × List Token)
  | 0, _ => .error .unexpectedToken
  | turns + 1, ts => do
    match ts with
    | .entry :: ts =>
      let (item, ts) ← readOr endsEntry true false turns ts
      let (items, ts) ← readEntries turns ts
      return (item :: items, ts)
    | _ => return ([], ts)

def readMap : Nat → List Token → Except Fault (List (Node × Node) × List Token)
  | 0, _ => .error .unexpectedToken
  | turns + 1, ts => do
    match ts with
    | .blockEnd :: ts => return ([], ts)
    | .key :: ts =>
      let (k, ts) ← readOr endsBlockPart true true turns ts
      let (v, ts) ← readValue endsBlockPart true true turns ts
      let (entries, ts) ← readMap turns ts
      return ((k, v) :: entries, ts)
    | _ => throw .unexpectedToken

/-- A key that is left out takes the sign after it along, so `[?, : c]` holds one pair, an empty key
with the value `c`, and `[?]` is not closed. -/
def readFlowList (isFirst : Bool) : Nat → List Token → Except Fault (List Node × List Token)
  | 0, _ => .error .unexpectedToken
  | turns + 1, ts => do
    match ← afterComma isFirst .flowSequenceEnd ts with
    | .flowSequenceEnd :: ts => return ([], ts)
    | .key :: ts =>
      let (k, ts) ← if ts.head?.any endsFlowItem then pure (empty, ts.drop 1)
        else read false false turns ts
      let (v, ts) ← readValue endsFlowItem false false turns ts
      let (items, ts) ← readFlowList false turns ts
      return (map [(k, v)] :: items, ts)
    | ts =>
      let (item, ts) ← read false false turns ts
      let (items, ts) ← readFlowList false turns ts
      return (item :: items, ts)

def readFlowMap (isFirst : Bool) : Nat → List Token → Except Fault (List (Node × Node) × List Token)
  | 0, _ => .error .unexpectedToken
  | turns + 1, ts => do
    match ← afterComma isFirst .flowMappingEnd ts with
    | .flowMappingEnd :: ts => return ([], ts)
    | .key :: ts =>
      let (k, ts) ← readOr endsFlowPart false false turns ts
      let (v, ts) ← readValue endsFlowPart false false turns ts
      let (entries, ts) ← readFlowMap false turns ts
      return ((k, v) :: entries, ts)
    | ts =>
      let (k, ts) ← read false false turns ts
      let (entries, ts) ← readFlowMap false turns ts
      return ((k, empty) :: entries, ts)

end

def isMarker : Token → Bool
  | .documentStart | .documentEnd => true
  | _ => false

/-- The only document, if there is one. Only a document that begins with its marker may be empty. -/
def ofTokens (ts : List Token) : Except Fault (Option Node) := do
  if ts.isEmpty then return none
  let marked := ts.head? == some .documentStart
  let content := if marked then ts.drop 1 else ts
  let (node, rest) ← if marked && content.head?.all isMarker then pure (empty, content)
    else read true false (4 * ts.length + 4) content
  match rest.dropWhile (· == .documentEnd) with
  | [] => return some node
  | .documentStart :: _ => throw .severalDocuments
  | _ => throw .unexpectedToken

def ofText (t : Text) : Except Fault (Option Node) := tokens t >>= ofTokens

end Node

end CallGuard.Yaml
