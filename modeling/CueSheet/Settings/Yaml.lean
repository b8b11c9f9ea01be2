/-!
Documents of nested mappings in YAML, in block or in flow form, with plain and quoted scalars and comments.
Every other construct makes a document unreadable.
-/

namespace CueSheet.Yaml

inductive Node
  /-- A plain scalar may be a number or nothing at all; a quoted one is a text. -/
  | scalar (plain : Bool) (text : List Char)
  | mapping (entries : List (List Char × Node))

def Node.null : Node := .scalar true []

def isAllowed (c : Char) : Bool :=
  let n := c.val.toNat
  n == 9 || n == 10 || (0x20 ≤ n && n ≤ 0x7E) || n == 0x85 || (0xA0 ≤ n && n ≤ 0xD7FF) ||
  (0xE000 ≤ n && n ≤ 0xFFFD && n != 0xFEFF) || 0x10000 ≤ n

def normalize : List Char → List Char
  | '\r' :: '\n' :: r => '\n' :: normalize r
  | '\r' :: r => '\n' :: normalize r
  | c :: r => c :: normalize r
  | [] => []

def isSpace (c : Char) : Bool := c == ' ' || c == '\t'

def atGap : List Char → Bool
  | [] => true
  | c :: _ => isSpace c || c == '\n'

def isFlowMark (c : Char) : Bool := "\x7b\x7d[],".toList.contains c

structure Spot where
  column : Nat
  fresh : Bool
  rest : List Char

/-- The next token behind spaces, comments and line ends. Outside the flow form a line must not start
with a tab. -/
def skip (flow : Bool) (comment fresh : Bool) (column : Nat) : List Char → Option Spot
  | [] => some ⟨column, fresh, []⟩
  | c :: r =>
    if c == '\n' then skip flow false true 0 r
    else if comment then skip flow true fresh column r
    else if c == ' ' then skip flow false fresh (column + 1) r
    else if c == '\t' then if fresh && !flow then none else skip flow false fresh (column + 1) r
    else if c == '#' then skip flow true fresh column r
    else some ⟨column, fresh, c :: r⟩

def hexDigit? (c : Char) : Option Nat :=
  if c.isDigit then some (c.toNat - 48)
  else if 'a' ≤ c && c ≤ 'f' then some (c.toNat - 87)
  else if 'A' ≤ c && c ≤ 'F' then some (c.toNat - 55)
  else none

def hexChar? (count : Nat) (s : List Char) : Option (Char × List Char) := do
  let ds ← (s.take count).mapM hexDigit?
  let n := ds.foldl (16 * · + ·) 0
  if ds.length = count && n.isValidChar then some (Char.ofNat n, s.drop count) else none

def escapes : List Char := "0abt\tnvfre \"/\\N_LP".toList

def escaped : List Char :=
  "\x00\x07\x08\t\t\n\x0b\x0c\r\x1b \"/\\\u0085\u00a0\u2028\u2029".toList

def escape? : List Char → Option (Char × List Char)
  | 'x' :: r => hexChar? 2 r
  | 'u' :: r => hexChar? 4 r
  | 'U' :: r => hexChar? 8 r
  | c :: r => ((escapes.zip escaped).lookup c).map (·, r)
  | [] => none

def lineGap (lines column : Nat) : List Char → Nat × Nat × List Char
  | '\n' :: r => lineGap (lines + 1) 0 r
  | ' ' :: r => lineGap lines (column + 1) r
  | '\t' :: r => lineGap lines (column + 1) r
  | r => (lines, column, r)

def folded (lines : Nat) : List Char :=
  if lines = 1 then [' '] else List.replicate (lines - 1) '\n'

def doubleQuoted : Nat → List Char → Option (List Char × List Char)
  | _, [] => none
  | 0, _ => none
  | _, '"' :: r => some ([], r)
  | n + 1, '\\' :: '\n' :: r => doubleQuoted n (r.dropWhile isSpace)
  | n + 1, '\\' :: r => do
    let (c, r) ← escape? r
    let (t, r) ← doubleQuoted n r
    return (c :: t, r)
  | n + 1, c :: r => do
    let (lines, _, behind) := lineGap 0 0 (c :: r)
    let (u, r) := if lines = 0 then ([c], r) else (folded lines, behind)
    let (t, r) ← doubleQuoted n r
    return (u ++ t, r)

def singleQuoted : Nat → List Char → Option (List Char × List Char)
  | _, [] => none
  | 0, _ => none
  | n + 1, '\'' :: '\'' :: r => do
    let (t, r) ← singleQuoted n r
    return ('\'' :: t, r)
  | _, '\'' :: r => some ([], r)
  | n + 1, c :: r => do
    let (lines, _, behind) := lineGap 0 0 (c :: r)
    let (u, r) := if lines = 0 then ([c], r) else (folded lines, behind)
    let (t, r) ← singleQuoted n r
    return (u ++ t, r)

def startsPlain (flow : Bool) : List Char → Bool
  | [] => false
  | c :: r =>
    if c == '-' || c == '?' || c == ':' then !atGap r && !(flow && r.head?.any isFlowMark)
    else !(isSpace c || c == '\n' || "\x7b\x7d[],#&*!|>'\"%@\x60".toList.contains c)

def plainLine (flow : Bool) : List Char → List Char × List Char
  | [] => ([], [])
  | c :: r =>
    if c == '\n' || (flow && isFlowMark c) ||
        (c == ':' && (atGap r || (flow && r.head?.any isFlowMark))) then ([], c :: r)
    else if isSpace c then
      if (r.dropWhile isSpace).head? == some '#' then ([], c :: r)
      else match plainLine flow r with
        | ([], _) => ([], c :: r)
        | (t, r) => (c :: t, r)
    else
      let (t, r) := plainLine flow r
      (c :: t, r)

def plainLines (indent : Nat) : Nat → List Char → List Char × List Char
  | 0, s => plainLine false s
  | n + 1, s =>
    let (t, r) := plainLine false s
    let (lines, column, more) := lineGap 0 0 r
    if lines = 0 || column ≤ indent || more.isEmpty || more.head? == some '#' then (t, r)
    else
      let (u, r) := plainLines indent n more
      (t ++ folded lines ++ u, r)

def shortScalar? (flow : Bool) (s : List Char) : Option (Bool × List Char × List Char) :=
  match s with
  | '"' :: r => (doubleQuoted r.length r).map (false, ·)
  | '\'' :: r => (singleQuoted r.length r).map (false, ·)
  | s => if startsPlain flow s then some (true, plainLine flow s) else none

def key? (s : List Char) : Option (List Char × List Char) := do
  let (_, t, r) ← shortScalar? false s
  if (s.take (s.length - r.length)).contains '\n' then failure
  match r.dropWhile isSpace with
  | ':' :: r => if atGap r then some (t, r) else none
  | _ => none

def flowEntries : Nat → List Char → Option (List (List Char × Node) × List Char)
  | 0, _ => none
  | n + 1, s => do
    let at₁ ← skip true false false 0 s
    if let '\x7d' :: r := at₁.rest then return ([], r)
    let (_, k, r) ← shortScalar? true at₁.rest
    let at₂ ← skip true false false 0 r
    let (v, r) ← match at₂.rest with
      | ':' :: r => do
        let at₃ ← skip true false false 0 r
        match at₃.rest with
        | '\x7b' :: r => do
          let (es, r) ← flowEntries n r
          pure (Node.mapping es, r)
        | ',' :: r => pure (Node.null, ',' :: r)
        | '\x7d' :: r => pure (Node.null, '\x7d' :: r)
        | s => do
          let (plain, t, r) ← shortScalar? true s
          pure (Node.scalar plain t, r)
      | r => pure (Node.null, r)
    let at₄ ← skip true false false 0 r
    match at₄.rest with
    | ',' :: r => do
      let (es, r) ← flowEntries n r
      return ((k, v) :: es, r)
    | '\x7d' :: r => return ([(k, v)], r)
    | _ => none

def inline? (indent : Nat) (s : List Char) : Option (Node × Spot) := do
  let (v, r) ← match s with
    | '\x7b' :: r => (flowEntries (r.length + 1) r).map fun (es, r) => (Node.mapping es, r)
    | s =>
      if startsPlain false s then
        let (t, r) := plainLines indent s.length s
        some (Node.scalar true t, r)
      else (shortScalar? false s).map fun (plain, t, r) => (Node.scalar plain t, r)
  let next ← skip false false false 1 r
  if next.fresh || next.rest.isEmpty then some (v, next) else none

def isEndMark (s : Spot) : Bool :=
  s.column == 0 && s.rest.take 3 == ['.', '.', '.'] && atGap (s.rest.drop 3)

def blockEntries : Nat → Nat → Spot → Option (List (List Char × Node) × Spot)
  | 0, _, _ => none
  | n + 1, column, s => do
    if s.rest.isEmpty || s.column < column || isEndMark s then return ([], s)
    if s.column > column then none
    let (k, r) ← key? s.rest
    let s ← skip false false false 1 r
    let (v, s) ←
      if s.rest.isEmpty || (s.fresh && s.column ≤ column) then pure (Node.null, s)
      else if s.fresh && (key? s.rest).isSome then do
        let (es, s) ← blockEntries n s.column s
        pure (Node.mapping es, s)
      else inline? column s.rest
    let (es, s) ← blockEntries n column s
    return ((k, v) :: es, s)

def afterMark (s : Spot) : Option Spot :=
  if s.column == 0 && s.rest.take 3 == ['-', '-', '-'] && atGap (s.rest.drop 3) then
    skip false false false 3 (s.rest.drop 3)
  else some s

def read? (text : List Char) : Option Node := do
  let text := normalize (if text.head? == some '\uFEFF' then text.tail else text)
  if !text.all isAllowed then failure
  let s ← skip false false true 0 text
  let s ← afterMark s
  let (v, s) ←
    if s.rest.isEmpty then pure (Node.null, s)
    else if (key? s.rest).isSome then do
      let (es, s) ← blockEntries (text.length + 1) s.column s
      pure (Node.mapping es, s)
    else inline? 0 s.rest
  let s ← if isEndMark s then skip false false false 3 (s.rest.drop 3) else pure s
  if s.rest.isEmpty then some v else none

end CueSheet.Yaml
