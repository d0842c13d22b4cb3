import Mathlib.Data.Option.Basic
import Mathlib.Logic.Function.Basic

/-!
# Patterns of ddcgc and what they match

The schemas of a rule file (`ddcgc/src/schema.h`), its patterns (`ddcgc/grammar/ddcg.asdl`) and their meaning, which
is the one `check_pattern` gives names (`typecheck.cpp:328-483`) and the table in `ddcgc/README.md` gives the rest.

* The destinations and sums that a file declares itself are a schema too, of the module `""`: that is how their
  variants are written.
* A constructor pattern in a field position is a constructor of `FieldPats` of its own, and so the other kinds of
  `pattern` are `LeafPat`.
* A pointer is `null` or a node, an optional field of a schema type is its pointer, and an absent string is
  `string none`. Of an optional number or enum value the C tree has no absent one.
* Strings are bytes.
-/

namespace Bbq.Ddcgc

abbrev Name := String

inductive FieldFlag
  | none
  | sequence
  | optional
  deriving DecidableEq

structure Field where
  name : Name
  /-- The module of its type: the field's own but for a field of a destination. -/
  typeModule : Name
  typeName : Name
  flag : FieldFlag
  isSchema : Bool

structure Constructor where
  sumName : Name
  fields : List Field

/-- The field of a name, `matched` in the sources. -/
def Constructor.field (k : Constructor) (name : Name) : Option Field := k.fields.find? fun f => f.name == name

structure Schema where
  /-- The name it is imported under. -/
  name : Name
  constructors : Name → Option Constructor
  enumSums : Name → Bool
  sumConstructors : Name → List Name

/-- The schemas of a file. -/
abbrev Schemas := Name → Option Schema

/-- The patterns without a constructor. -/
inductive LeafPat
  | bind (name : Name)
  | wildcard
  | nil
  | int (value : Int)
  | string (value : List UInt8)

/-- The `field_pat`s of a constructor pattern. -/
inductive FieldPats
  | nil
  | leaf (name : Name) (pat : LeafPat) (more : FieldPats)
  | nested (name module ctor : Name) (sub : FieldPats) (more : FieldPats)
  | rest (name : Name) (more : FieldPats)

inductive Pattern
  | constructor (module ctor : Name) (fields : FieldPats)
  | leaf (pat : LeafPat)

/-! ## Values -/

inductive Value
  | null
  | int (n : Int)
  | string (s : Option (List UInt8))
  | enum (ctor : Name)
  | node (module ctor : Name) (field : Name → Value)
  | list (count : Nat) (elem : Nat → Value)
  | array (elem : Nat → Value)
  | other (token : Nat)

namespace Value

def isNull : Value → Bool
  | null => true
  | _ => false

def isInt (n : Int) : Value → Bool
  | int m => m == n
  | _ => false

def isString (s : List UInt8) : Value → Bool
  | string (some t) => t == s
  | _ => false

def isEnum (ctor : Name) : Value → Bool
  | enum c => c == ctor
  | _ => false

end Value

/-- The variables of a pattern. -/
abbrev Env := Name → Option Value

def Env.empty : Env := fun _ => none

def Env.bind (env : Env) (x : Name) (v : Value) : Env := Function.update env x (some v)

/-! ## What a pattern matches -/

/-- Whether a name is a value of the enum that a field has, by the schema of the field's constructor. -/
def enumValue (schema : Schema) (f : Option Field) (name : Name) : Bool :=
  match f with
  | some f => schema.enumSums f.typeName && (schema.sumConstructors f.typeName).contains name
  | none => false

/-- In a pattern of a field the name of an enum value stands for it, unless the field is a sequence. -/
def enumConstant (schemas : Schemas) (f : Option Field) (name : Name) : Bool :=
  match f.bind fun f => schemas f.typeModule with
  | some schema => enumValue schema f name && (f.map Field.flag != some .sequence)
  | none => false

def LeafPat.matches (schemas : Schemas) (f : Option Field) (v : Value) (env : Env) : LeafPat → Option Env
  | bind x => if enumConstant schemas f x then (if v.isEnum x then some env else none) else some (env.bind x v)
  | wildcard => some env
  | nil => if v.isNull then some env else none
  | int n => if v.isInt n then some env else none
  | string s => if v.isString s then some env else none

/-- The constructor of a name in a module. -/
def Schemas.find (schemas : Schemas) (module ctor : Name) : Option Constructor :=
  (schemas module).bind fun s => s.constructors ctor

/-- The fields of a node of the constructor `k` match, from the left. -/
def FieldPats.matches (schemas : Schemas) : FieldPats → Constructor → (Name → Value) → Env → Option Env
  | nil, _, _, env => some env
  | leaf name pat more, k, field, env =>
    (pat.matches schemas (k.field name) (field name) env).bind (more.matches schemas k field)
  | nested name module ctor sub more, k, field, env =>
    match field name, schemas.find module ctor with
    | .node m c field', some k' =>
      if m = module ∧ c = ctor then (sub.matches schemas k' field' env).bind (more.matches schemas k field) else none
    | _, _ => none
  | rest name more, k, field, env => more.matches schemas k field (env.bind name (field name))

/-- A pattern that stands by itself. -/
def Pattern.matches (schemas : Schemas) (v : Value) : Pattern → Option Env
  | constructor module ctor fields =>
    match v, schemas.find module ctor with
    | .node m c field, some k => if m = module ∧ c = ctor then fields.matches schemas k field .empty else none
    | _, _ => none
  | leaf pat => pat.matches schemas none v .empty

end Bbq.Ddcgc
