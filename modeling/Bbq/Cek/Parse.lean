import Bbq.Cek.Fit

/-!
# What a grammar means

The parse a grammar describes, construct by construct, without konts, frames or savepoints: ordered
choice tries its arms in order, each from the state the choice was entered in.

* A state (`St`) is what the machine saves at a savepoint and what expressions read. Of the capture
  tree it has the open scopes (`OpenScope`).
* A rule is called through `call`, and a loop runs on fuel: `parseRule p all (n + 1)` is a rule's body with
  `parseRule p all n` for the rules it refers to. `timeout` is the answer when the fuel runs out.
* The compiler drops some annotations (a `where` on a rule reference, an interval on a union's
  variant, …). `all` says whether they count: `false` is the language as it is compiled.

`Compile.lean` names the productions; each branch here is the meaning of the one of that name.
-/

namespace Bbq.Cek

/-! ## Outcomes -/

inductive Outcome (α : Type)
  | ok (a : α)
  | fail
  /-- Out of fuel. -/
  | timeout
  /-- A reference to a rule that does not exist; `compile_grammar` aborts on it. -/
  | missing

namespace Outcome

variable {α β : Type}

def bind (o : Outcome α) (f : α → Outcome β) : Outcome β :=
  match o with
  | ok a => f a
  | fail => fail
  | timeout => timeout
  | missing => missing

instance : Monad Outcome where
  pure := ok
  bind := bind

/-- On failure, the alternative. -/
def orElse (o o' : Outcome α) : Outcome α :=
  match o with
  | fail => o'
  | o => o

@[simp] theorem ok_bind (a : α) (f : α → Outcome β) : (ok a >>= f) = f a := rfl

@[simp] theorem fail_bind (f : α → Outcome β) : ((fail : Outcome α) >>= f) = fail := rfl

@[simp] theorem timeout_bind (f : α → Outcome β) : ((timeout : Outcome α) >>= f) = timeout := rfl

@[simp] theorem missing_bind (f : α → Outcome β) : ((missing : Outcome α) >>= f) = missing := rfl

theorem bind_assoc {γ : Type} (o : Outcome α) (f : α → Outcome β) (g : β → Outcome γ) :
    (o >>= f >>= g) = (o >>= fun a => f a >>= g) := by
  rcases o with _ | _ | _ | _ <;> rfl

@[simp] theorem pure_eq (a : α) : (pure a : Outcome α) = ok a := rfl

end Outcome

/-! ## States -/

structure St where
  pos : Nat
  env : Env
  /-- Innermost first. -/
  windows : List Window
  littleEndian : Bool
  /-- Open capture scopes, innermost first. -/
  scopes : List OpenScope
  /-- `counter` of the innermost loop. -/
  counter : Option Int64

abbrev Parser := St → Outcome St

namespace St

variable (p : Program)

def effectiveStart (s : St) : Nat := (bounds p.bytes.length s.windows).1

def effectiveEnd (s : St) : Nat := (bounds p.bytes.length s.windows).2

def view (s : St) : View :=
  { input := p.bytes, pos := s.pos, effectiveEnd := s.effectiveEnd p, env := s.env
    scopes := s.scopes, counter := s.counter }

/-- A machine at the cursor, to read with. -/
def cursor (s : St) : Machine :=
  { p.start .halt with pos := s.pos, littleEndian := s.littleEndian }

def rest (s : St) : List UInt8 := bytesAt p.bytes s.pos (s.effectiveEnd p - s.pos)

/-! ### Expressions -/

def value (s : St) (e : Expr) : Outcome (Option Value) :=
  match eval (s.view p) e with
  | .error _ => .fail
  | .ok v => .ok v

def int (s : St) (e : Expr) : Outcome Int64 := do
  match ← s.value p e with
  | some (.int i) => .ok i
  | _ => .fail

def test (s : St) (e : Expr) : Outcome Bool := do
  match coerceToBool (← s.value p e) with
  | some b => .ok b
  | none => .fail

/-- A `where`. -/
def check (constraint : Option Expr) : Parser := fun s =>
  match constraint with
  | none => .ok s
  | some e => do if ← s.test p e then .ok s else .fail

/-! ### Leaves -/

def varintLeaf (s : St) (v : Int64) (consumed : Nat) (enc : Zcow.Enc) : Leaf :=
  { Leaf.carrier .computed s.pos (sizeAdd s.pos consumed) (some (.int v.toInt)) with enc }

/-- What `MatchPrimitive` carries. -/
def primitiveLeaf (s : St) (prim : PrimitiveInfo) : Outcome Leaf :=
  let bits := if prim.width = .w64 then 64 else 32
  match prim.encoding with
  | .uleb =>
    match decodeUleb128 bits (s.rest p) with
    | some (u, consumed) => .ok (s.varintLeaf (.ofNat u) consumed .uleb)
    | none => .fail
  | .sleb =>
    match decodeSleb128 bits (s.rest p) with
    | some (v, consumed) => .ok (s.varintLeaf v consumed .sleb)
    | none => .fail
  | .fixed =>
    let stop := sizeAdd s.pos prim.byteCount
    if stop > s.effectiveEnd p then .fail
    else .ok (.carrier (primitiveCaptureType prim s.littleEndian) s.pos stop
      (some (lowerComputed (some ((s.cursor p).readPrimitiveAsValue p prim)))))

/-- What `MatchBytes` carries. -/
def bytesLeaf (s : St) (length : Expr) (isString : Bool) : Outcome Leaf := do
  let len ← s.int p length
  let stop := sizeAdd s.pos len.toInt.toNat
  if len < 0 ∨ stop > s.effectiveEnd p then .fail
  else .ok (.carrier (if isString then .string else .bytes) s.pos stop none)

/-- What `BindCompute` carries. -/
def computeLeaf (s : St) (e : Expr) : Outcome Leaf := do
  match ← s.value p e with
  | none => .fail
  | some v => .ok (.carrier .computed s.pos s.pos (some (lowerComputed (some v))))

/-- What `ExternalCall` carries. -/
def externalLeaf (s : St) (funcName : String) : Outcome Leaf :=
  match p.externs with
  | none => .fail
  | some table =>
    match table funcName with
    | none => .fail
    | some fn =>
      match fn (p.bytes.drop s.pos) (sizeSub (s.effectiveEnd p) s.pos) with
      | none => .fail
      | some consumed => .ok (.carrier .external s.pos (sizeAdd s.pos consumed) none)

/-- What `ExtractBits` carries. -/
def bitsLeaf (s : St) (container : PrimitiveInfo) (width offsetBefore : Nat) (isSigned : Bool) :
    Outcome Leaf :=
  let stop := sizeAdd s.pos container.byteCount
  if stop > s.effectiveEnd p then .fail
  else
    let msbFirst := container.endian == .big || container.endian == .default && !s.littleEndian
    let shift := Machine.bitsShift container width offsetBefore msbFirst
    let value := Machine.bitsValue ((s.cursor p).readPrimitive p container) shift width isSigned
    let leaf := Leaf.carrier .computed s.pos stop (some (.int value.toInt))
    .ok { leaf with bits := ⟨shift % 256, (shift + width) % 256, isSigned, true⟩ }

/-- `Capture`. -/
def capture (name : Option String) (l : Leaf) (s : St) : St :=
  let value := if l.type = .computed then l.computedValue else none
  { s with
    scopes := attachCapture
      (.mk (fieldLeaf name l.startOffset l.endOffset l.type value l.enc l.bits) []) s.scopes }

/-- `StoreEnv`. -/
def bindName (name : Option String) (l : Leaf) (s : St) : St :=
  { s with
    env := { name, value := liftComputed l.computedValue, startOffset := l.startOffset
             endOffset := l.endOffset, type := l.type } :: s.env }

/-- `fieldDest`. -/
def dest (name : String) (l : Leaf) (s : St) : St :=
  if name = "_" then s.bindName (some "_") l
  else (s.capture (nullable name) l).bindName (nullable name) l

/-- Past the leaf, with its value stored. -/
def take (name : String) (l : Leaf) (s : St) : St := { s with pos := l.endOffset }.dest name l

/-! ### Scopes and windows -/

def openScope (type : CaptureType) (name : String) (s : St) : St :=
  { s with scopes := ⟨{ Leaf.carrier type s.pos s.pos none with name := some name }, []⟩ :: s.scopes }

def closeScope (s : St) : St :=
  match s.scopes with
  | [] => s
  | o :: R => { s with scopes := attachCapture (.mk { o.leaf with endOffset := s.pos } o.kids) R }

def seek (e : Expr) : Parser := fun s => do
  let target ← s.int p e
  if target < 0 ∨ target.toInt.toNat > p.bytes.length then .fail
  else .ok { s with pos := target.toInt.toNat }

def pushWindow (relative : Bool) (e : Expr) : Parser := fun s => do
  let v ← s.int p e
  let stop := if relative then sizeAdd s.pos v.toInt.toNat else v.toInt.toNat
  if s.pos > stop ∨ s.pos < s.effectiveStart p ∨ stop > s.effectiveEnd p then .fail
  else .ok { s with windows := (s.pos, stop) :: s.windows }

def popWindow (checked : Bool) : Parser := fun s =>
  match s.windows with
  | [] => .ok s
  | _ :: W => if checked ∧ s.pos ≠ s.effectiveEnd p then .fail else .ok { s with windows := W }

/-- `intervalEntry`. -/
def enter (iv : Interval) : Parser := fun s =>
  match iv with
  | .startEnd start stop => do pushWindow p false stop (← seek p start s)
  | .length len => pushWindow p true len s

end St

/-! ## Annotations -/

section

variable (p : Program)

/-- Parse inside a window. -/
def inWindow (iv : Option Interval) (body : Parser) : Parser := fun s =>
  match iv with
  | none => body s
  | some iv => do St.popWindow p false (← body (← St.enter p iv s))

variable (all : Bool)

/-- A `where` the compiler drops. -/
def droppedWhere (constraint : Option Expr) : Parser :=
  St.check p (if all then constraint else none)

/-- An interval the compiler drops. -/
def droppedWindow (iv : Option Interval) (body : Parser) : Parser :=
  inWindow p (if all then iv else none) body

/-- The window a construct asks for itself; the length of a byte run is not one. -/
def ownWindow (t : TypeExpr) : Option Interval := fieldInterval none t

/-- A construct where its own window is dropped. -/
def placed (t : TypeExpr) (body : Parser) : Parser := droppedWindow p all (ownWindow t) body

/-- The windows of a field: the compiler keeps the first of its own and its body's. -/
def fieldWindows (interval : Option Interval) (t : TypeExpr) (body : Parser) : Parser :=
  match interval with
  | none => inWindow p (ownWindow t) body
  | some iv => inWindow p (some iv) (placed p all t body)

/-! ## Arrays -/

/-- Whether a counted array's resync ends it short of its count; `limit` is -1 when it has none. -/
def shortOf (limit : Int64) (s : St) : Bool :=
  match s.counter with
  | some c => decide (0 ≤ limit ∧ c < limit)
  | none => false

/-- The elements of an array from here on. `gate` says whether there is one; `entry` parses it, and
`next` the later ones, each with the separator before it. A resyncing array tries again one byte on,
up to the end of the window. -/
def elements (resync : Bool) (limit : Int64) (more : St → Outcome Bool) (next : Parser) :
    (fuel : Nat) → (gate : Outcome Bool) → (entry : Parser) → Parser
  | 0, _, _, _ => .timeout
  | n + 1, gate, entry, s =>
    match gate with
    | .ok false => .ok s
    | gate =>
      match (gate >>= fun _ => entry s) with
      | .ok s =>
        let s := { s with counter := s.counter.map (· + 1) }
        elements resync limit more next n (more s) next s
      | .fail =>
        if resync = false then .fail
        else if s.pos ≥ s.effectiveEnd p then if shortOf limit s then .fail else .ok s
        else elements resync limit more next n (.ok true) next { s with pos := s.pos + 1 }
      | o => o

/-- `ArrayNext`'s question, after the counter has advanced. `ArrayCountCheck` wants the loop on top, where a resyncing
array has its savepoint. -/
def moreElements (mode : ArrayMode) (resync : Bool) (limit : Int64) (s : St) : Outcome Bool :=
  match mode with
  | .fixedCount _ => .ok (decide ¬ (s.counter.getD 0 ≥ limit))
  | .eof => .ok (decide ¬ (s.pos ≥ s.effectiveEnd p))
  | .count e => do
    let count ← s.int p e
    if resync then .fail else return decide ¬ (s.counter.getD 0 ≥ count)
  | .until e => do return !(← s.test p e)

/-- `BeginArray`: the limit, before the array's scope is open. -/
def arrayLimit (mode : ArrayMode) (s : St) : Outcome Int64 :=
  match mode with
  | .fixedCount e | .count e => s.int p e
  | .eof | .until _ => .ok (-1)

/-- `BeginArray`: whether there is a first element. -/
def firstElement (mode : ArrayMode) (limit : Int64) (s : St) : Outcome Bool :=
  match mode with
  | .fixedCount _ | .count _ => .ok (decide (limit > 0))
  | .eof => .ok (decide ¬ (s.pos ≥ s.effectiveEnd p))
  | .until e => do return !(← s.test p e)

def parseArray (fuel : Nat) (name : String) (mode : ArrayMode) (resync : Bool) (body next : Parser) :
    Parser := fun s => do
  let limit ← arrayLimit p mode s
  let opened := { s.openScope .array name with counter := some 0 }
  let s' ← elements p resync limit (moreElements p mode resync limit) next fuel
    (firstElement p mode limit opened) body opened
  return { s'.closeScope with env := s.env, counter := s.counter }

end

def arrayMode : ArraySpec → ArrayMode
  | .fixedCount e => .fixedCount e
  | .sepTerm _ .eof | .sepTerm _ (.type _) => .eof
  | .sepTerm _ (.count e) => .count e
  | .sepTerm _ (.until e) => .until e

/-! ## Constructs -/

/-- Whether a case names the discriminant. -/
def caseMatches (v : Value) : CaseValue → Bool
  | .range lo hi =>
    match v with
    | .int v => decide (lo.toInt ≤ v.toInt ∧ v.toInt ≤ hi.toInt)
    | _ => false
  | value => Machine.matchesCase v (caseValueToValue value)

section

variable (p : Program) (all : Bool) (fuel : Nat) (call : String → Parser)

/-- `compile_bitfield`. -/
def parseBits (container : PrimitiveInfo) : (offset : Nat) → List BitfieldEntry → Parser
  | _, [], s => .ok { s with pos := sizeAdd s.pos container.byteCount }
  | offset, e :: es, s => do
    let l ← s.bitsLeaf p container e.width offset (e.sign == .signed)
    let s ← St.check p e.constraint (s.dest e.name l)
    parseBits container (offset + e.width) es s

/-- `compile_primitive`. -/
def parsePrimitive (kind : PrimitiveKind) (constraint : Option Expr) (interval : Option Interval)
    (name : String) : Parser := fun s => do
  let l ←
    if kind = .bytes ∨ kind = .string then
      let length := match interval with
        | some (.length len) => len
        | _ => .builtin .remaining
      s.bytesLeaf p length (kind == .string)
    else s.primitiveLeaf p (toPrimInfo kind)
  St.check p constraint (s.take name l)

/-- `armBody`: a rule reference is called without a scope of its own. -/
def armParser (body : TypeExpr) (parsed : Parser) : Parser :=
  match body with
  | .ruleRef name constraint iv => fun s => do
    droppedWhere p all constraint (← droppedWindow p all iv (call name) s)
  | t => placed p all t parsed

mutual

def parse : TypeExpr → (name : String) → Parser
  | .struct fields constraint, name, s => do
    let s ← parseFields fields (s.openScope .struct name)
    let s ← if fields.hasRest then St.popWindow p true s else .ok s
    let s ← St.check p constraint s
    return s.closeScope
  | .union variants, name, s =>
    match variants with
    | .nil => .ok s
    | .cons _ _ _ _ _ => parseArms variants name s
  | .array element spec constraint _ elementInterval resync, name, s => do
    let body := inWindow p elementInterval (placed p all element (parse element ""))
    let s ← parseArray p fuel name (arrayMode spec) resync body (parseSpec spec body) s
    St.check p constraint s
  | .optional element constraint interval, name, s =>
    let body := droppedWindow p all interval (placed p all element (parse element name))
    match constraint with
    | some cond => do if ← s.test p cond then body s else .ok s
    | none => (body s).orElse (.ok s)
  | .switch discriminator cases default, name, s => do
    match ← s.value p discriminator with
    | none => .fail
    | some v => parseCases cases name v (parseDefault default name) s
  | .compute e, name, s => do return s.take name (← s.computeLeaf p e)
  | .primitive kind constraint interval, name, s => parsePrimitive p kind constraint interval name s
  | .ruleRef ruleName constraint _, name, s => do
    let s ← call ruleName (s.openScope .struct name)
    droppedWhere p all constraint s.closeScope
  | .external funcName constraint _, name, s => do
    droppedWhere p all constraint (s.take name (← s.externalLeaf p funcName))
  | .bitfield container first rest, name, s => do
    return (← parseBits p (toPrimInfo container) 0 (first :: rest) (s.openScope .struct name)).closeScope
  | .endianSwitch e, _, s => do return { s with littleEndian := ← s.test p e }

def parseFields : Fields → Parser
  | .nil, s => .ok s
  | .cons name body constraint interval scopesRest rest, s => do
    if scopesRest then
      let s ← droppedWindow p all interval (placed p all body (parse body name)) s
      let s ← droppedWhere p all constraint s
      parseFields rest (← St.pushWindow p true (.ref (.simple name none)) s)
    else
      let s ← fieldWindows p all interval body (parse body name) s
      parseFields rest (← droppedWhere p all constraint s)

/-- The first arm that succeeds. -/
def parseArms : Variants → (name : String) → Parser
  | .nil, _, _ => .fail
  | .cons vname body constraint interval rest, name, s =>
    Outcome.orElse
      (do
        let s ← droppedWindow p all interval (armParser p all call body (parse body name))
          (s.openScope .struct vname)
        return (← droppedWhere p all constraint s).closeScope)
      (parseArms rest name s)

/-- The first case that names the discriminant, else the default. -/
def parseCases : Cases → (name : String) → Value → (default : Parser) → Parser
  | .nil, _, _, default, s => default s
  | .cons value target interval rest, name, v, default, s =>
    if caseMatches v value then
      droppedWindow p all interval (placed p all target (parse target name)) s
    else parseCases rest name v default s

def parseDefault : SwitchDefault → (name : String) → Parser
  | .absent, _, _ | .reject, _, _ => .fail
  | .target t interval, name, s => droppedWindow p all interval (placed p all t (parse t name)) s

/-- The later elements of an array: after the separator, if there is one. -/
def parseSpec : ArraySpec → (body : Parser) → Parser
  | .fixedCount _, body, s => body s
  | .sepTerm sep _, body, s => parseSeparator sep body s

def parseSeparator : Separator → (body : Parser) → Parser
  | .none, body, s => body s
  | .type t, body, s => do body (← placed p all t (parse t "_") s)

end

/-! ## Rules -/

/-- A rule's body: a struct or a bit field at the top has no scope. -/
def parseBody : TypeExpr → Parser
  | .struct fields constraint, s => do
    let s ← parseFields p all fuel call fields s
    let s ← if fields.hasRest then St.popWindow p true s else .ok s
    St.check p constraint s
  | .bitfield container first rest, s => parseBits p (toPrimInfo container) 0 (first :: rest) s
  | t, s => placed p all t (parse p all fuel call t "") s

end

section

variable (p : Program) (all : Bool)

/-- Fuel bounds the rules called within each other, and the elements of each array. -/
def parseRule : (fuel : Nat) → String → Parser
  | 0, _, _ => .timeout
  | n + 1, name, s =>
    match p.grammar.rules.find? fun r => r.name == name with
    | none => .missing
    | some r => do return { ← parseBody p all n (parseRule n) r.body s with env := s.env }

/-- The whole parse. -/
def parseProgram (fuel : Nat) (name : String) : Outcome St :=
  parseRule p all fuel name
    { pos := 0, env := [], windows := [], littleEndian := p.grammar.defaultLittleEndian
      scopes := [rootScope []], counter := none }

end

end Bbq.Cek
