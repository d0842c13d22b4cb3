import Bbq.Cek.Eval

/-!
# Konts and their compilation

The spine konts (`backends/cek/bbq_ir.asdl`) and the productions of `backends/cek/bbq.ddcg`
(`:560-820, 1000-1420, 1740-1877`) that build them from a grammar.

* A kont points to its successor; here it holds it. The one cycle, `ArrayNext` and `ResyncKont` back
  to the element, holds a `LoopSite` instead: the element and the `ρ` it is compiled under, from which
  `bodyHead` and `loopEntry` are compiled again where the source follows its pointer.
* `InvokeRule` names its rule; `Program.entry` (`Machine.lean`) resolves the name, as
  `compile_grammar` patches `entry`.
* `ρ` (`Rho`) is the chain of enclosing scopes. An expression kont is the expression itself.
* Interned names are strings; `none` is the null pointer.
-/

namespace Bbq.Cek

/-! ## Primitives -/

inductive PrimKind
  | integer | float | bool
  deriving DecidableEq, Repr

structure PrimitiveInfo where
  kind : PrimKind
  width : Width
  sign : Signedness
  /-- `PrimEndian`; `default` is `Native`. -/
  endian : Endianness
  encoding : Encoding
  deriving DecidableEq, Repr

/-- `to_prim_info`; a run of bytes has none and keeps the defaults. -/
def toPrimInfo : PrimitiveKind → PrimitiveInfo
  | .integer width sign endian encoding => ⟨.integer, width, sign, endian, encoding⟩
  | .float width endian =>
    ⟨.float, if width = .w32 then .w32 else .w64, .unsigned, endian, .fixed⟩
  | .bool => ⟨.bool, .w8, .unsigned, .default, .fixed⟩
  | .bytes | .string => ⟨.integer, .w8, .unsigned, .default, .fixed⟩

def PrimitiveInfo.byteCount (p : PrimitiveInfo) : Nat :=
  match p.kind with
  | .bool => 1
  | .float => if p.width = .w64 then 8 else 4
  | .integer =>
    match p.width with
    | .w8 => 1
    | .w16 => 2
    | .w32 => 4
    | .w64 => 8

/-- `want_le`: a native field follows the endianness in force. -/
def PrimitiveInfo.wantLe (p : PrimitiveInfo) (littleEndian : Bool) : Bool :=
  match p.endian with
  | .default => littleEndian
  | e => e == .little

def primitiveCaptureType (p : PrimitiveInfo) (littleEndian : Bool) : CaptureType :=
  let le := p.wantLe littleEndian
  match p.kind with
  | .bool => .bool
  | .float =>
    if p.width = .w32 then if le then .float32LE else .float32BE
    else if le then .float64LE else .float64BE
  | .integer =>
    match p.sign, p.width with
    | .signed, .w8 => .int8
    | .signed, .w16 => if le then .int16LE else .int16BE
    | .signed, .w32 => if le then .int32LE else .int32BE
    | .signed, .w64 => if le then .int64LE else .int64BE
    | .unsigned, .w8 => .uInt8
    | .unsigned, .w16 => if le then .uInt16LE else .uInt16BE
    | .unsigned, .w32 => if le then .uInt32LE else .uInt32BE
    | .unsigned, .w64 => if le then .uInt64LE else .uInt64BE

/-! ## Konts -/

/-- `switch_case::match_value`. -/
inductive MatchValue
  | int (v : Int64)
  | string (v : String)
  deriving DecidableEq, Repr

mutual

inductive Kont
  | halt
  | matchPrimitive (prim : PrimitiveInfo) (next : Kont)
  | matchBytes (length : Expr) (isString : Bool) (next : Kont)
  | capture (name : Option String) (next : Kont)
  | storeEnv (name : Option String) (next : Kont)
  | beginStruct (name : String) (next : Kont)
  | beginVariant (name : String) (tag : Nat) (next : Kont)
  | endStruct (next : Kont)
  | seek (expr : Expr) (next : Kont)
  | pushInterval (relative : Bool) (expr : Expr) (next : Kont)
  | popInterval (checked : Bool) (next : Kont)
  | evalConstraint (expr : Expr) (onFalse next : Kont)
  | bindCompute (expr : Expr) (next : Kont)
  | setEndian (expr : Expr) (next : Kont)
  | extractBits (container : PrimitiveInfo) (width offsetBefore : Nat) (isSigned : Bool)
      (next : Kont)
  | advancePos (by_ : Nat) (next : Kont)
  | externalCall (funcName : String) (next : Kont)
  | switchDispatch (discriminator : Expr) (cases : Targets) (default : Option Kont)
      (defaultReject : Bool)
  | beginChoice (onFailTarget next : Kont)
  | commitChoice (next : Kont)
  | beginOptional (onFailTarget inner : Kont)
  | endOptional (next : Kont)
  | onFail (target nextOnFail : Option Kont) (popFrame : Bool)
  | invokeRule (ruleName : String) (callerFailTarget : Option Kont) (next : Kont)
  | returnRule (next : Kont)
  | abortRule
  | beginArray (site : LoopSite)
  | arrayNext (site : LoopSite)
  | endArray (resync : Bool) (next : Kont)
  | resync (site : LoopSite)

/-- `switch_case*`: value (`none` for a null `match_value`), ordinal, target. -/
inductive Targets
  | nil
  | cons (value : Option MatchValue) (ordinal : Nat) (target : Kont) (rest : Targets)

/-- `ρ`: the lexical scopes around a construct, innermost first. -/
inductive Rho
  | root
  | inField (name : Option String) (parent : Rho)
  | inAlt (failTarget : Kont) (parent : Rho)
  | inOptional (failTarget : Kont) (parent : Rho)
  | inArrayElem (failTarget : Option Kont) (parent : Rho)

/-- An array: what `compile_array` was called with. -/
inductive LoopSite
  | mk (arrayName : String) (element : TypeExpr) (spec : ArraySpec)
      (elementInterval : Option Interval) (resync : Bool) (rho : Rho) (next : Kont)

end

/-- The "exhausted" link of a choice. -/
def exhausted : Kont := .onFail none none true

/-! ## What the scopes around a construct decide -/

/-- `intern_field_or_anon`: the name a construct captures under; empty for none. -/
def internFieldOrAnon : Rho → String
  | .inField name _ => name.getD ""
  | .inArrayElem _ _ | .root => ""
  | .inAlt _ p | .inOptional _ p => internFieldOrAnon p

/-- `find_backtrack_target`: the failure handler of the innermost scope that has one. -/
def findBacktrackTarget : Rho → Option Kont
  | .root => none
  | .inAlt t _ | .inOptional t _ => some t
  | .inArrayElem (some t) _ => some t
  | .inArrayElem none p | .inField _ p => findBacktrackTarget p

/-- A name, null when empty. -/
def nullable (name : String) : Option String := if name.isEmpty then none else some name

def inField (name : String) (r : Rho) : Rho := .inField (nullable name) r

/-! ## Productions without recursion -/

/-- `field_dest`: capture and bind; `_` only binds. -/
def fieldDest (name : String) (tail : Kont) : Kont :=
  if name = "_" then .storeEnv (some "_") tail
  else .capture (nullable name) (.storeEnv (nullable name) tail)

/-- `wrap_where`: check a construct's `where` before going on to `next`. -/
def wrapWhere (constraint : Option Expr) (r : Rho) (next : Kont) : Kont :=
  match constraint with
  | none => next
  | some e => .evalConstraint e ((findBacktrackTarget r).getD .abortRule) next

/-- `interval_entry`: move to and bound the window `body` runs in. -/
def intervalEntry (iv : Interval) (body : Kont) : Kont :=
  match iv with
  | .startEnd start stop => .seek start (.pushInterval false stop body)
  | .length len => .pushInterval true len body

/-- `interval_of`. -/
def intervalOf : TypeExpr → Option Interval
  | .primitive _ _ iv | .ruleRef _ _ iv | .external _ _ iv => iv
  | .array _ _ _ iv _ _ => iv
  | _ => none

/-- `is_byte_run`. -/
def isByteRun : TypeExpr → Bool
  | .primitive kind _ _ => kind == .bytes || kind == .string
  | _ => false

/-- The interval `compile_fields` puts around a field's body: the field's own, or the body's unless
it is the width of a byte run. -/
def fieldInterval (interval : Option Interval) (body : TypeExpr) : Option Interval :=
  match interval with
  | some iv => some iv
  | none =>
    match intervalOf body with
    | some (.startEnd start stop) => some (.startEnd start stop)
    | some (.length len) => if isByteRun body then none else some (.length len)
    | none => none

/-- `compile_primitive`. -/
def compilePrimitive (kind : PrimitiveKind) (constraint : Option Expr) (interval : Option Interval)
    (r : Rho) (next : Kont) : Kont :=
  let tail := wrapWhere constraint r next
  let dest := fieldDest (internFieldOrAnon r) tail
  if kind = .bytes ∨ kind = .string then
    let length := match interval with
      | some (.length len) => len
      | _ => .builtin .remaining
    .matchBytes length (kind == .string) dest
  else .matchPrimitive (toPrimInfo kind) dest

/-- `compile_bitfield` from an entry on, `offset` bits into the container. -/
def compileBitfield (container : PrimitiveInfo) (r : Rho) (next : Kont) :
    (offset : Nat) → List BitfieldEntry → Kont
  | _, [] => .advancePos container.byteCount next
  | offset, e :: es =>
    .extractBits container e.width offset (e.sign == .signed)
      (fieldDest e.name
        (wrapWhere e.constraint r (compileBitfield container r next (offset + e.width) es)))

/-- `case_value_to_value`. -/
def caseValueToValue : CaseValue → Option MatchValue
  | .int v => some (.int v)
  | .str s => some (.string s)
  | .ident name => some (.string name)
  | .range _ _ | .ref _ => none

/-- `n` consecutive discriminants from `v` on, for one target. -/
def rangeTargets (ordinal : Nat) (target : Kont) (rest : Targets) : (n : Nat) → Int64 → Targets
  | 0, _ => rest
  | n + 1, v => .cons (some (.int v)) ordinal target (rangeTargets ordinal target rest n (v + 1))

/-- The entries of one case of a switch. -/
def caseTargets (value : CaseValue) (ordinal : Nat) (target : Kont) (rest : Targets) : Targets :=
  match value with
  | .range lo hi => rangeTargets ordinal target rest (hi.toInt - lo.toInt + 1).toNat lo
  | v => .cons (caseValueToValue v) ordinal target rest

/-- What `build_variant_arm` puts in the variant's scope: a rule reference is invoked without a
scope of its own, `compiled` is anything else. -/
def armBody (body : TypeExpr) (r : Rho) (next compiled : Kont) : Kont :=
  match body with
  | .ruleRef name _ _ => .invokeRule name (findBacktrackTarget r) next
  | _ => compiled

/-! ## Productions -/

mutual

def compile : TypeExpr → Rho → Kont → Kont
  | .struct fields constraint, r, next =>
    let checked := wrapWhere constraint r (.endStruct next)
    let tail := if fields.hasRest then .popInterval true checked else checked
    .beginStruct (internFieldOrAnon r) (compileFields fields r tail)
  | .union variants, r, next =>
    match variants with
    | .nil => next
    | .cons name body _ _ .nil =>
      .beginVariant name 0 (armBody body r (.endStruct next) (compile body r (.endStruct next)))
    | .cons name body _ _ rest =>
      let commit := .commitChoice next
      let arms := compileArms rest 1 r commit
      let head := .onFail (some arms.1) (some arms.2) false
      let first := compile body (.inAlt head r) (.endStruct commit)
      .beginChoice head (.beginVariant name 0 (armBody body (.inAlt head r) (.endStruct commit) first))
  | .array element spec constraint _ elementInterval resync, r, next =>
    .beginArray
      (.mk (internFieldOrAnon r) element spec elementInterval resync r (wrapWhere constraint r next))
  | .optional element constraint _, r, next =>
    match constraint with
    | some cond => .evalConstraint cond next (compile element r next)
    | none =>
      let skip := .onFail (some next) none true
      .beginOptional skip (compile element (.inOptional skip r) (.endOptional next))
  | .switch discriminator cases default, r, next =>
    .switchDispatch discriminator (compileCases cases 0 r next) (compileDefault default r next)
      (match default with | .reject => true | _ => false)
  | .compute e, r, next => .bindCompute e (fieldDest (internFieldOrAnon r) next)
  | .primitive kind constraint interval, r, next =>
    compilePrimitive kind constraint interval r next
  | .ruleRef name _ _, r, next =>
    .beginStruct (internFieldOrAnon r)
      (.invokeRule name (findBacktrackTarget r) (.endStruct next))
  | .external funcName _ _, r, next =>
    .externalCall funcName (fieldDest (internFieldOrAnon r) next)
  | .bitfield container first rest, r, next =>
    .beginStruct (internFieldOrAnon r)
      (compileBitfield (toPrimInfo container) r (.endStruct next) 0 (first :: rest))
  | .endianSwitch e, _, next => .setEndian e next

/-- `compile_fields`, `tail` being what follows the last field. -/
def compileFields : Fields → Rho → Kont → Kont
  | .nil, _, tail => tail
  | .cons name body _ interval scopesRest rest, r, tail =>
    let chain := compileFields rest r tail
    if scopesRest then
      compile body (inField name r) (.pushInterval true (.ref (.simple name none)) chain)
    else
      match fieldInterval interval body with
      | some iv => intervalEntry iv (compile body (inField name r) (.popInterval false chain))
      | none => compile body (inField name r) chain

/-- The arms of `compile_choice` from the `i`-th on: the entry of the first of them, and the link
its failure follows. The last arm is compiled under the choice's own `ρ`. -/
def compileArms : Variants → (i : Nat) → Rho → Kont → Kont × Kont
  | .nil, _, _, commit => (commit, exhausted)
  | .cons name body _ _ .nil, i, r, commit =>
    (.beginVariant name i (armBody body r (.endStruct commit) (compile body r (.endStruct commit))),
      exhausted)
  | .cons name body _ _ rest, i, r, commit =>
    let arms := compileArms rest (i + 1) r commit
    let link := .onFail (some arms.1) (some arms.2) false
    let inner := compile body (.inAlt link r) (.endStruct commit)
    (.beginVariant name i (armBody body (.inAlt link r) (.endStruct commit) inner), link)

/-- `compile_switch_cases` from the `i`-th case on. -/
def compileCases : Cases → (i : Nat) → Rho → Kont → Targets
  | .nil, _, _, _ => .nil
  | .cons value target _ rest, i, r, next =>
    caseTargets value i (compile target r next) (compileCases rest (i + 1) r next)

/-- `compile_switch_default`. -/
def compileDefault : SwitchDefault → Rho → Kont → Option Kont
  | .absent, _, _ | .reject, _, _ => none
  | .target t _, r, next => some (compile t r next)

end

/-! ## Arrays -/

/-- `ArrayMode`, with the expression it reads. A type terminator compiles as `EOF_`. -/
inductive ArrayMode
  | fixedCount (count : Expr)
  | eof
  | count (count : Expr)
  | until (condition : Expr)

namespace LoopSite

def arrayName : LoopSite → String
  | mk n _ _ _ _ _ _ => n

def spec : LoopSite → ArraySpec
  | mk _ _ s _ _ _ _ => s

/-- Whether the array is marked `resync`. -/
def resyncs : LoopSite → Bool
  | mk _ _ _ _ b _ _ => b

def rho : LoopSite → Rho
  | mk _ _ _ _ _ r _ => r

def next : LoopSite → Kont
  | mk _ _ _ _ _ _ k => k

def mode (s : LoopSite) : ArrayMode :=
  match s.spec with
  | .fixedCount e => .fixedCount e
  | .sepTerm _ .eof | .sepTerm _ (.type _) => .eof
  | .sepTerm _ (.count e) => .count e
  | .sepTerm _ (.until e) => .until e

/-- `resync_kont`. -/
def resyncTarget (s : LoopSite) : Option Kont := if s.resyncs then some (.resync s) else none

def elemRho (s : LoopSite) : Rho := .inArrayElem s.resyncTarget s.rho

def endNode (s : LoopSite) : Kont := .endArray s.resyncs s.next

/-- `body_head`: an element, up to `ArrayNext`. -/
def bodyHead (s : LoopSite) : Kont :=
  match s with
  | mk _ element _ (some iv) _ _ _ =>
    intervalEntry iv (compile element s.elemRho (.popInterval false (.arrayNext s)))
  | mk _ element _ none _ _ _ => compile element s.elemRho (.arrayNext s)

/-- `loop_entry`: the separator, if there is one, and then an element. -/
def loopEntry (s : LoopSite) : Kont :=
  match s.spec with
  | .sepTerm (.type t) _ => compile t (inField "_" s.elemRho) s.bodyHead
  | _ => s.bodyHead

end LoopSite

/-! ## Rules -/

/-- What every rule ends with. -/
def ruleExit : Kont := .returnRule .halt

/-- A rule of `compile_grammar`: a struct or a bit field at the top is inlined, without a scope. -/
def compileRule : TypeExpr → Kont
  | .struct fields constraint =>
    let checked := wrapWhere constraint .root ruleExit
    compileFields fields .root (if fields.hasRest then .popInterval true checked else checked)
  | .bitfield container first rest =>
    compileBitfield (toPrimInfo container) .root ruleExit 0 (first :: rest)
  | t => compile t .root ruleExit

/-- `compile_grammar`: the rule entries. -/
def compileGrammar (g : Grammar) : List (String × Kont) :=
  g.rules.map fun r => (r.name, compileRule r.body)

end Bbq.Cek
