import Bbq.Cek.Compile
import Bbq.Zcow.Builder

/-!
# The CEK machine

`CEKMachine` (`backends/cek/Machine.h`, `Frame.h`) and the `invoke` of every spine kont
(`backends/cek/Machine.cpp:158-183, 990-1608, 1755-2038`), one step each.

* A site kont pushes its consumer and an expression; the expression's evaluation (`eval`) and the
  consumer are one step here. So the kont stack holds one spine kont at a time (`Control.run`), and
  `saved_kont_size` is always 0.
* A frame chain is a list, top first. Of a `LoopFrame` only the members something reads are kept
  (`counter`, `limit`, `outer_env`).
* Offsets are `size_t`: `sizeAdd` and `sizeSub` where they could wrap. An input is shorter than
  2 ^ 63 bytes.
* A registered external parser is a function of the bytes from the cursor on and the number
  remaining in the window; `none` is its `false`.
-/

namespace Bbq.Cek

open Zcow (Builder Cell Node)

/-- `size_t` addition. -/
def sizeAdd (a b : Nat) : Nat := (a + b) % 2 ^ 64

/-- `size_t` subtraction. -/
def sizeSub (a b : Nat) : Nat := (a + (2 ^ 64 - b % 2 ^ 64)) % 2 ^ 64

/-! ## Captures of a builder -/

/-- What a capture keeps of a node's cell. -/
def leafOf (c : Cell) : Leaf :=
  { name := c.name, type := c.type, startOffset := c.startOffset, endOffset := c.endOffset
    computedValue := c.computedValue, enc := c.enc, bits := c.bits }

mutual

/-- A node without its tags, annotations and edit state. -/
def captureOf : Node → Capture
  | .mk c kids => .mk (leafOf c) (capturesOf kids)

def capturesOf : List Node → List Capture
  | [] => []
  | n :: ns => captureOf n :: capturesOf ns

end

/-- The scope that stands for the top level. -/
def rootScope (kids : List Capture) : OpenScope :=
  { leaf := { Leaf.carrier .struct 0 0 none with name := none }, kids }

/-- The open scopes of a builder, innermost first, and the top level. -/
def scopesOf (b : Builder) : List OpenScope :=
  b.stack.map (fun n => ⟨leafOf n.cell, capturesOf n.kids⟩) ++ [rootScope (capturesOf b.roots)]

/-! ## Frames -/

structure ReturnFrame where
  returnTo : Kont
  savedEnv : Env
  startPos : Nat
  captureMark : Builder.Mark
  ruleFailTarget : Option Kont

structure Savepoint where
  savedEnv : Env
  savedPos : Nat
  savedEndian : Bool
  savedIntervalDepth : Nat
  captureMark : Builder.Mark
  onFailTarget : Option Kont

structure LoopFrame where
  counter : Int64
  limit : Int64
  outerEnv : Env

inductive Frame
  | return (f : ReturnFrame)
  | savepoint (f : Savepoint)
  | loop (f : LoopFrame)

/-- The first savepoint, with the frames above and below it. -/
def splitSavepoint : List Frame → Option (List Frame × Savepoint × List Frame)
  | [] => none
  | .savepoint sp :: below => some ([], sp, below)
  | f :: fs => (splitSavepoint fs).map fun (above, sp, below) => (f :: above, sp, below)

/-- `fail`'s walk: the first savepoint with a target, frames above it popped. -/
def unwind : List Frame → Option (Kont × List Frame)
  | [] => none
  | .savepoint sp :: below =>
    match sp.onFailTarget with
    | some target => some (target, .savepoint sp :: below)
    | none => unwind below
  | _ :: fs => unwind fs

/-- `AbortRuleKont`'s walk: the caller's target and the frames under its call. -/
def abortTarget : List Frame → Option (Kont × List Frame)
  | [] => none
  | .return rf :: below =>
    match rf.ruleFailTarget with
    | some target => some (target, below)
    | none => abortTarget below
  | _ :: fs => abortTarget fs

/-- `LoopVarKont`'s walk. -/
def loopCounter : List Frame → Option Int64
  | [] => none
  | .loop lf :: _ => some lf.counter
  | _ :: fs => loopCounter fs

/-! ## State -/

inductive Control
  | run (k : Kont)
  | done
  | failed

structure Machine where
  control : Control
  env : Env
  frames : List Frame
  /-- `ac`. -/
  result : Option Value
  pos : Nat
  /-- `interval_starts`, `interval_ends`: slots from `intervalDepth` on are stale. -/
  intervals : List (Nat × Nat)
  intervalDepth : Nat
  littleEndian : Bool
  builder : Builder
  bestErrorPos : Nat
  bestErrorMsg : Option String

abbrev Extern := List UInt8 → Nat → Option Nat

/-- A compiled grammar, an input and what is registered for it. -/
structure Program where
  grammar : Grammar
  bytes : List UInt8
  small : bytes.length < 2 ^ 63
  /-- `ext_parsers`; `none` when not configured. -/
  externs : Option (String → Option Extern)

namespace Program

/-- The entry of a rule. -/
def entry (p : Program) (ruleName : String) : Option Kont :=
  (p.grammar.rules.find? fun r => r.name == ruleName).map fun r => compileRule r.body

/-- `execute_from`: a fresh machine at an entry. -/
def start (p : Program) (entry : Kont) : Machine :=
  { control := .run entry, env := [], frames := [], result := none, pos := 0, intervals := []
    intervalDepth := 0, littleEndian := p.grammar.defaultLittleEndian, builder := .empty
    bestErrorPos := 0, bestErrorMsg := none }

end Program

namespace Machine

variable (p : Program)

/-- The slot of the innermost interval. -/
def window (m : Machine) : Option (Nat × Nat) :=
  match m.intervalDepth with
  | 0 => none
  | d + 1 => m.intervals[d]?

def effectiveStart (m : Machine) : Nat := (m.window.map Prod.fst).getD 0

def effectiveEnd (m : Machine) : Nat := (m.window.map Prod.snd).getD p.bytes.length

def view (m : Machine) : View :=
  { input := p.bytes, pos := m.pos, effectiveEnd := m.effectiveEnd p, env := m.env
    scopes := scopesOf m.builder, counter := loopCounter m.frames }

/-- Schedule a kont. -/
def go (m : Machine) (k : Kont) : Machine := { m with control := .run k }

/-- The furthest error so far. -/
def noteError (m : Machine) (message : String) : Machine :=
  { m with
    bestErrorPos := if m.pos ≥ m.bestErrorPos then m.pos else m.bestErrorPos
    bestErrorMsg := if m.pos ≥ m.bestErrorPos then some message else m.bestErrorMsg }

/-- `CEKMachine::fail`. -/
def fail (m : Machine) (message : String) : Machine :=
  match unwind m.frames with
  | some (target, frames) => { m.noteError message with frames, control := .run target }
  | none => { m.noteError message with frames := [], control := .failed }

/-- Evaluate an expression into `ac` and go on with the consumer. -/
def consume (m : Machine) (e : Expr) (consumer : Machine → Option Value → Machine) : Machine :=
  match eval (m.view p) e with
  | .error message => m.fail message
  | .ok v => consumer { m with result := v } v

/-- A consumer that wants an integer. -/
def consumeInt (m : Machine) (e : Expr) (text : String) (consumer : Machine → Int64 → Machine) :
    Machine :=
  m.consume p e fun m v =>
    match v with
    | some (.int i) => consumer m i
    | _ => m.fail text

/-- A consumer that wants a condition. -/
def consumeBool (m : Machine) (e : Expr) (text : String) (consumer : Machine → Bool → Machine) :
    Machine :=
  m.consume p e fun m v =>
    match coerceToBool v with
    | some b => consumer m b
    | none => m.fail text

/-! ## Producers -/

/-- Leave a carrier in `ac` and go on. -/
def produce (m : Machine) (leaf : Leaf) (next : Kont) : Machine :=
  { m with result := some (.capture (.mk leaf [])), control := .run next }

/-- `read_primitive`. -/
def readPrimitive (m : Machine) (prim : PrimitiveInfo) : Int64 :=
  let n := prim.byteCount
  let w := wordOf (prim.wantLe m.littleEndian) (bytesAt p.bytes m.pos n)
  match prim.kind with
  | .bool => if w = 0 then 0 else 1
  | .float => (wordToDouble n w).toFloat.toInt64
  | .integer => wordToInt64 (prim.sign == .signed) n w

/-- `read_primitive_as_value`. -/
def readPrimitiveAsValue (m : Machine) (prim : PrimitiveInfo) : Value :=
  let n := prim.byteCount
  let w := wordOf (prim.wantLe m.littleEndian) (bytesAt p.bytes m.pos n)
  match prim.kind with
  | .bool => .bool (w != 0)
  | .float => .float (wordToDouble n w)
  | .integer => .int (m.readPrimitive p prim)

/-- The bytes a read may look at. -/
def rest (m : Machine) : List UInt8 := bytesAt p.bytes m.pos (m.effectiveEnd p - m.pos)

/-- Advance past a varint and carry its value. -/
def produceVarint (m : Machine) (v : Int64) (consumed : Nat) (enc : Zcow.Enc) (next : Kont) :
    Machine :=
  let stop := sizeAdd m.pos consumed
  let leaf := Leaf.carrier .computed m.pos stop (some (.int v.toInt))
  { m with pos := stop }.produce { leaf with enc } next

/-- `MatchPrimitiveNode`. -/
def matchPrimitive (m : Machine) (prim : PrimitiveInfo) (next : Kont) : Machine :=
  let bits := if prim.width = .w64 then 64 else 32
  match prim.encoding with
  | .uleb =>
    match decodeUleb128 bits (m.rest p) with
    | some (u, consumed) => m.produceVarint (.ofNat u) consumed .uleb next
    | none => m.fail "invalid uleb128"
  | .sleb =>
    match decodeSleb128 bits (m.rest p) with
    | some (s, consumed) => m.produceVarint s consumed .sleb next
    | none => m.fail "invalid sleb128"
  | .fixed =>
    let stop := sizeAdd m.pos prim.byteCount
    if stop > m.effectiveEnd p then m.fail "unexpected end of input"
    else
      let value := lowerComputed (some (m.readPrimitiveAsValue p prim))
      { m with pos := stop }.produce
        (.carrier (primitiveCaptureType prim m.littleEndian) m.pos stop (some value)) next

/-- `MatchBytesApplyKont`. -/
def matchBytes (m : Machine) (length : Expr) (isString : Bool) (next : Kont) : Machine :=
  m.consumeInt p length "bytes length not integer" fun m len =>
    let stop := sizeAdd m.pos len.toInt.toNat
    if len < 0 ∨ stop > m.effectiveEnd p then m.fail "bytes out of range"
    else
      { m with pos := stop }.produce
        (.carrier (if isString then .string else .bytes) m.pos stop none) next

/-- `BindComputeStoreKont`. -/
def bindCompute (m : Machine) (e : Expr) (next : Kont) : Machine :=
  m.consume p e fun m v =>
    match v with
    | none => m.fail "bind-compute: null value"
    | some v =>
      m.produce (.carrier .computed m.pos m.pos (some (lowerComputed (some v)))) next

/-- `ExternalCallNode`. -/
def externalCall (m : Machine) (funcName : String) (next : Kont) : Machine :=
  match p.externs with
  | none => m.fail "external parsers not configured"
  | some table =>
    match table funcName with
    | none => m.fail "external parser not registered"
    | some fn =>
      match fn (p.bytes.drop m.pos) (sizeSub (m.effectiveEnd p) m.pos) with
      | none => m.fail "external parser failed"
      | some consumed =>
        let stop := sizeAdd m.pos consumed
        { m with pos := stop }.produce (.carrier .external m.pos stop none) next

/-- The shift of a bit field's entry within its container. -/
def bitsShift (container : PrimitiveInfo) (width offsetBefore : Nat) (msbFirst : Bool) : Nat :=
  if msbFirst then container.byteCount * 8 - offsetBefore - width else offsetBefore

/-- The entry's value: shifted out, masked, and sign-extended from its width. -/
def bitsValue (raw : Int64) (shift width : Nat) (isSigned : Bool) : Int64 :=
  let mask : Int64 := if width ≥ 64 then -1 else 1 <<< Int64.ofNat width - 1
  let v := raw >>> Int64.ofNat shift &&& mask
  if isSigned ∧ 0 < width ∧ width < 64 ∧ v &&& 1 <<< Int64.ofNat (width - 1) ≠ 0
  then v - 1 <<< Int64.ofNat width else v

/-- `ExtractBitsNode`. -/
def extractBits (m : Machine) (container : PrimitiveInfo) (width offsetBefore : Nat)
    (isSigned : Bool) (next : Kont) : Machine :=
  let stop := sizeAdd m.pos container.byteCount
  if stop > m.effectiveEnd p then m.fail "bitfield: unexpected end of input"
  else
    let msbFirst := container.endian == .big || container.endian == .default && !m.littleEndian
    let shift := bitsShift container width offsetBefore msbFirst
    let value := bitsValue (m.readPrimitive p container) shift width isSigned
    let leaf := Leaf.carrier .computed m.pos stop (some (.int value.toInt))
    { m with builder := m.builder.scopeIsBitsRun msbFirst }.produce
      { leaf with bits := ⟨shift % 256, (shift + width) % 256, isSigned, true⟩ } next

/-! ## Stores -/

/-- `place_value`. -/
def placeValue (m : Machine) (who : String) (store : Leaf → Machine) : Machine :=
  match m.result with
  | some (.capture c) => store c.leaf
  | _ => m.fail who

/-- `CaptureKont`: only a computed value is kept in the tree. -/
def capture (m : Machine) (name : Option String) (next : Kont) : Machine :=
  m.placeValue "capture: no value" fun l =>
    let value := if l.type = .computed then l.computedValue else none
    { m with
      builder := m.builder.addField name l.startOffset l.endOffset l.type value l.enc l.bits }.go next

/-- `StoreEnvKont`. -/
def storeEnv (m : Machine) (name : Option String) (next : Kont) : Machine :=
  m.placeValue "store_env: no value" fun l =>
    let binding : Binding :=
      { name, value := liftComputed l.computedValue, startOffset := l.startOffset
        endOffset := l.endOffset, type := l.type }
    { m with env := binding :: m.env }.go next

/-! ## Decisions -/

/-- `EvalConstraintCheckKont`. -/
def evalConstraint (m : Machine) (e : Expr) (onFalse next : Kont) : Machine :=
  m.consumeBool p e "constraint expects bool" fun m b => m.go (if b then next else onFalse)

/-- `SetEndianApplyKont`. -/
def setEndian (m : Machine) (e : Expr) (next : Kont) : Machine :=
  m.consumeBool p e "@endian expects bool" fun m b => { m with littleEndian := b }.go next

/-- Whether a discriminant is the one a case names. -/
def matchesCase : Value → Option MatchValue → Bool
  | .int v, some (.int w) => v == w
  | .string v, some (.string w) => v == w
  | _, _ => false

/-- The first case that names the discriminant. -/
def selectCase (v : Value) : Targets → Option (Nat × Kont)
  | .nil => none
  | .cons value ordinal target rest =>
    if matchesCase v value then some (ordinal, target) else selectCase v rest

/-- `max_ordinal + 1`. -/
def nextOrdinal : Targets → Nat
  | .nil => 0
  | .cons _ ordinal _ rest => max (ordinal + 1) (nextOrdinal rest)

/-- `SwitchSelectKont`. -/
def switchDispatch (m : Machine) (discriminator : Expr) (cases : Targets) (default : Option Kont)
    (defaultReject : Bool) : Machine :=
  m.consume p discriminator fun m v =>
    match v with
    | none => m.fail "switch: null discriminator"
    | some v =>
      match selectCase v cases with
      | some (ordinal, target) =>
        { m with builder := m.builder.setPendingVariantTag ordinal }.go target
      | none =>
        match default with
        | some target =>
          { m with builder := m.builder.setPendingVariantTag (nextOrdinal cases) }.go target
        | none =>
          m.fail (if defaultReject then "switch: discriminant rejected by `default: reject`"
            else "switch: no matching case and no default")

/-! ## Intervals -/

/-- `SeekApplyKont`. -/
def seek (m : Machine) (e : Expr) (next : Kont) : Machine :=
  m.consumeInt p e "interval start is not an integer" fun m target =>
    if target < 0 ∨ target.toInt.toNat > p.bytes.length then m.fail "interval start out of range"
    else { m with pos := target.toInt.toNat }.go next

/-- The field a relative window is measured by, if it is one of the same scope. -/
def restField (relative : Bool) (e : Expr) : Option String :=
  if relative then (countPathOf e).filter fun path => !path.contains '.' else none

/-- A new slot, or a stale one reused. -/
def openWindow (m : Machine) (start stop : Nat) : Machine :=
  { m with
    intervals :=
      if m.intervalDepth = m.intervals.length then m.intervals ++ [(start, stop)]
      else m.intervals.set m.intervalDepth (start, stop)
    intervalDepth := m.intervalDepth + 1 }

/-- `PushIntervalApplyKont`: a window must lie within the one around it. -/
def pushIntervalApply (m : Machine) (relative : Bool) (v : Int64) (next : Kont) : Machine :=
  let stop := if relative then sizeAdd m.pos v.toInt.toNat else v.toInt.toNat
  if m.pos > stop ∨ m.pos < m.effectiveStart ∨ stop > m.effectiveEnd p
  then m.fail "interval out of range"
  else (m.openWindow m.pos stop).go next

/-- Record on the open scope the field a window is measured by. -/
def markRest (m : Machine) (relative : Bool) (e : Expr) : Machine :=
  match restField relative e with
  | some path => { m with builder := m.builder.scopeDeterminesRest (some path) }
  | none => m

/-- `PushIntervalNode`. -/
def pushInterval (m : Machine) (relative : Bool) (e : Expr) (next : Kont) : Machine :=
  (m.markRest relative e).consumeInt p e "interval end is not an integer" fun m v => m.pushIntervalApply p relative v next

/-- `PopIntervalNode`. -/
def popInterval (m : Machine) (checked : Bool) (next : Kont) : Machine :=
  if m.intervalDepth > 0 then
    if checked ∧ m.pos ≠ m.effectiveEnd p then m.fail "interval: size mismatch"
    else { m with intervalDepth := m.intervalDepth - 1 }.go next
  else m.go next

/-! ## Savepoints -/

/-- A savepoint of the state as it is. -/
def savepoint (m : Machine) (onFailTarget : Option Kont) : Savepoint :=
  { savedEnv := m.env, savedPos := m.pos, savedEndian := m.littleEndian
    savedIntervalDepth := m.intervalDepth, captureMark := m.builder.mark, onFailTarget }

def pushFrame (m : Machine) (f : Frame) : Machine := { m with frames := f :: m.frames }

/-- Pop the top frame if it is a savepoint. -/
def popSavepoint (m : Machine) : Machine :=
  match m.frames with
  | .savepoint _ :: below => { m with frames := below }
  | _ => m

/-- Back to what a savepoint saved. -/
def restoreTo (m : Machine) (sp : Savepoint) : Machine :=
  { m with
    pos := sp.savedPos, intervalDepth := sp.savedIntervalDepth, env := sp.savedEnv
    littleEndian := sp.savedEndian, builder := m.builder.restore sp.captureMark }

/-- `OnFailKont`. -/
def onFail (m : Machine) (target nextOnFail : Option Kont) (popFrame : Bool) : Machine :=
  match splitSavepoint m.frames with
  | none => m.fail "OnFailKont with no Savepoint in scope"
  | some (above, sp, below) =>
    let m := m.restoreTo sp
    match target with
    | none => { m with frames := below }.fail "alt exhausted"
    | some target =>
      let sp := { sp with onFailTarget := nextOnFail }
      { m with frames := if popFrame then below else above ++ Frame.savepoint sp :: below }.go target

/-! ## Rule calls -/

/-- `InvokeRuleNode`. `compile_grammar` aborts on a name that has no rule. -/
def invokeRule (m : Machine) (ruleName : String) (callerFailTarget : Option Kont) (next : Kont) :
    Machine :=
  match p.entry ruleName with
  | none => { m with control := .failed }
  | some entry =>
    (m.pushFrame (.return
      { returnTo := next, savedEnv := m.env, startPos := m.pos, captureMark := m.builder.mark
        ruleFailTarget := callerFailTarget })).go entry

/-- `ReturnRuleNode`. -/
def returnRule (m : Machine) (next : Kont) : Machine :=
  match m.frames with
  | .return f :: below => { m with frames := below, env := f.savedEnv }.go f.returnTo
  | _ => m.go next

/-- `AbortRuleKont`. -/
def abortRule (m : Machine) : Machine :=
  match abortTarget m.frames with
  | some (target, frames) => { m with frames }.go target
  | none => m.fail "rule abort with no caller backtrack scope"

/-! ## Arrays -/

/-- `push_resync_savepoint`. -/
def pushResyncSavepoint (m : Machine) (site : LoopSite) : Machine :=
  match site.resyncTarget with
  | none => m
  | some target => m.pushFrame (.savepoint (m.savepoint (some target)))

/-- Open the array's scope and push its frame. -/
def enterArray (m : Machine) (site : LoopSite) (limit : Int64) : Machine :=
  let m := { m with builder := m.builder.beginArray (some site.arrayName) m.pos }
  m.pushFrame (.loop { counter := 0, limit, outerEnv := m.env })

/-- Arm the field a count names, for the scope about to open. -/
def armCount (m : Machine) (count : Expr) : Machine :=
  match countPathOf count with
  | some path => { m with builder := m.builder.setPendingCountField (some path) }
  | none => m

/-- `BeginArrayNode` of a counted array, and `BeginArrayWithLimitKont`. -/
def beginCounted (m : Machine) (site : LoopSite) (count : Expr) : Machine :=
  (m.armCount count).consumeInt p count "array count must be integer" fun m limit =>
    let m := m.enterArray site limit
    if limit > 0 then (m.pushResyncSavepoint site).go site.bodyHead else m.go site.endNode

/-- `ArrayUntilCheckKont`. -/
def untilCheck (m : Machine) (site : LoopSite) (condition : Expr) (body : Kont) : Machine :=
  m.consumeBool p condition "array until expects bool" fun m b =>
    m.go (if b then site.endNode else body)

/-- `BeginArrayNode`. -/
def beginArray (m : Machine) (site : LoopSite) : Machine :=
  match site.mode with
  | .fixedCount e | .count e => m.beginCounted p site e
  | .eof =>
    let m := (m.enterArray site (-1)).pushResyncSavepoint site
    m.go (if m.pos ≥ m.effectiveEnd p then site.endNode else site.bodyHead)
  | .until e => ((m.enterArray site (-1)).pushResyncSavepoint site).untilCheck p site e site.bodyHead

/-- `ArrayCountCheckKont`: the loop frame must be on top. -/
def countCheck (m : Machine) (site : LoopSite) (count : Expr) : Machine :=
  m.consumeInt p count "array count must be integer" fun m limit =>
    match m.frames with
    | .loop lf :: _ => m.go (if lf.counter ≥ limit then site.endNode else site.loopEntry)
    | _ => m.fail "ArrayCountCheck without LoopFrame"

/-- `ArrayNextNode` once the counter has advanced: whether there is another element. -/
def nextElement (m : Machine) (site : LoopSite) (lf : LoopFrame) : Machine :=
  match site.mode with
  | .fixedCount _ => m.go (if lf.counter ≥ lf.limit then site.endNode else site.loopEntry)
  | .eof => m.go (if m.pos ≥ m.effectiveEnd p then site.endNode else site.loopEntry)
  | .count e => m.countCheck p site e
  | .until e => m.untilCheck p site e site.loopEntry

def LoopFrame.advance (lf : LoopFrame) : LoopFrame := { lf with counter := lf.counter + 1 }

/-- `ArrayNextNode`: in resync mode the savepoint on top is refreshed first. -/
def arrayNext (m : Machine) (site : LoopSite) : Machine :=
  if site.resyncs then
    match m.frames with
    | .savepoint sp :: .loop lf :: below =>
      let lf := LoopFrame.advance lf
      { m with
        frames := .savepoint (m.savepoint sp.onFailTarget) :: .loop lf :: below }.nextElement p site lf
    | .savepoint sp :: below =>
      { m with frames := .savepoint (m.savepoint sp.onFailTarget) :: below }.fail
        "ArrayNext without LoopFrame"
    | _ => m.fail "ArrayNext (resync) missing Savepoint"
  else
    match m.frames with
    | .loop lf :: below =>
      let lf := LoopFrame.advance lf
      { m with frames := .loop lf :: below }.nextElement p site lf
    | _ => m.fail "ArrayNext without LoopFrame"

/-- `EndArrayNode`. -/
def endArray (m : Machine) (resync : Bool) (next : Kont) : Machine :=
  let m := if resync then m.popSavepoint else m
  match m.frames with
  | .loop lf :: below =>
    { m with builder := m.builder.closeScope m.pos, frames := below, env := lf.outerEnv }.go next
  | _ => m.fail "EndArray without LoopFrame"

/-- Whether a counted array would end short of its count. -/
def fewerThanDeclared : List Frame → Bool
  | .loop lf :: _ => decide (0 ≤ lf.limit ∧ lf.counter < lf.limit)
  | _ => false

/-- `ResyncKont`: retry the element one byte on. -/
def resync (m : Machine) (site : LoopSite) : Machine :=
  match splitSavepoint m.frames with
  | none => m.fail "ResyncKont: no Savepoint in scope"
  | some (above, sp, below) =>
    let m := m.restoreTo sp
    if m.pos ≥ m.effectiveEnd p then
      let m := { m with frames := below }
      if fewerThanDeclared below then m.fail "resync: fewer elements than the declared count"
      else m.go site.endNode
    else
      let m := { m with pos := m.pos + 1 }
      { m with frames := above ++ Frame.savepoint (m.savepoint sp.onFailTarget) :: below }.go site.loopEntry

/-! ## The trampoline -/

/-- One `invoke`. -/
def exec (m : Machine) : Kont → Machine
  | .halt => { m with control := .done }
  | .matchPrimitive prim next => m.matchPrimitive p prim next
  | .matchBytes length isString next => m.matchBytes p length isString next
  | .capture name next => m.capture name next
  | .storeEnv name next => m.storeEnv name next
  | .beginStruct name next => { m with builder := m.builder.beginStruct (some name) m.pos }.go next
  | .beginVariant name tag next =>
    { m with builder := m.builder.beginVariant (some name) m.pos tag }.go next
  | .endStruct next => { m with builder := m.builder.closeScope m.pos }.go next
  | .seek e next => m.seek p e next
  | .pushInterval relative e next => m.pushInterval p relative e next
  | .popInterval checked next => m.popInterval p checked next
  | .evalConstraint e onFalse next => m.evalConstraint p e onFalse next
  | .bindCompute e next => m.bindCompute p e next
  | .setEndian e next => m.setEndian p e next
  | .extractBits container width offsetBefore isSigned next =>
    m.extractBits p container width offsetBefore isSigned next
  | .advancePos n next => { m with pos := sizeAdd m.pos n }.go next
  | .externalCall funcName next => m.externalCall p funcName next
  | .switchDispatch discriminator cases default defaultReject =>
    m.switchDispatch p discriminator cases default defaultReject
  | .beginChoice onFailTarget next =>
    (m.pushFrame (.savepoint (m.savepoint (some onFailTarget)))).go next
  | .commitChoice next => m.popSavepoint.go next
  | .beginOptional onFailTarget inner =>
    (m.pushFrame (.savepoint (m.savepoint (some onFailTarget)))).go inner
  | .endOptional next => m.popSavepoint.go next
  | .onFail target nextOnFail popFrame => m.onFail target nextOnFail popFrame
  | .invokeRule ruleName callerFailTarget next => m.invokeRule p ruleName callerFailTarget next
  | .returnRule next => m.returnRule next
  | .abortRule => m.abortRule
  | .beginArray site => m.beginArray p site
  | .arrayNext site => m.arrayNext p site
  | .endArray resync next => m.endArray resync next
  | .resync site => m.resync p site

/-- One turn of the trampoline. -/
def step (m : Machine) : Machine :=
  match m.control with
  | .run k => m.exec p k
  | .done | .failed => m

/-- The machine after `n` turns. -/
def run (m : Machine) : Nat → Machine
  | 0 => m
  | n + 1 => run (m.step p) n

end Machine

end Bbq.Cek
