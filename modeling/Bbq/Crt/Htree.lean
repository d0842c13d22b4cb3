import Mathlib.Algebra.Ring.Nat
import Mathlib.Data.Fintype.Basic
import Mathlib.Data.List.FinRange
import Mathlib.Logic.Function.Basic

/-!
# The radix tree

`crt/bbq_htree.c`: a 16-way tree over the nibbles of a 64-bit key, the most significant first, with each leaf
at the shallowest depth that tells its key from the others.

* `null` is the empty slot. A slot is written by giving the tree that is in it afterwards.
* Which requests an allocator grants is an `Alloc`; what it hands out is left out, as is giving back.
* `insertAt` and `deleteAt` are the walks of `bbq_htree_insert` and `bbq_htree_delete` with what is done on
  the way back.
-/

namespace Bbq.Crt

variable {V : Type}

/-- An allocator: the answers to its requests, and how many were made. -/
structure Alloc where
  grant : Nat → Bool
  asked : Nat

/-- One request. -/
def Alloc.request (a : Alloc) : Bool × Alloc := (a.grant a.asked, { a with asked := a.asked + 1 })

/-- Up to `n` requests, until one is refused. -/
def Alloc.requests (a : Alloc) : Nat → Bool × Alloc
  | 0 => (true, a)
  | n + 1 =>
    match a.request with
    | (true, a) => a.requests n
    | (false, a) => (false, a)

/-- Three requests that are all made, whatever the first ones come to. -/
def Alloc.three (a : Alloc) : Bool × Alloc :=
  let (first, a) := a.request
  let (second, a) := a.request
  let (third, a) := a.request
  (first && second && third, a)

/-- `bbq_htree_node`. -/
inductive HNode (V : Type)
  | null
  | leaf (key : UInt64) (value : V)
  | interior (children : Fin 16 → HNode V)

namespace HNode

def isNull : HNode V → Bool
  | null => true
  | leaf _ _ | interior _ => false

def isLeaf : HNode V → Bool
  | leaf _ _ => true
  | null | interior _ => false

end HNode

/-- The number of nibbles of a key. -/
def nibbles : Nat := 16

/-- `nibble`. -/
def nibble (key : UInt64) (level : Nat) : Fin 16 := Fin.ofNat 16 (key >>> UInt64.ofNat (60 - level * 4)).toNat

/-- The loop of `divergence`. -/
def divergence (a b : UInt64) : Nat → Nat → Nat
  | 0, d => d
  | turns + 1, d => if d < nibbles ∧ nibble a d = nibble b d then divergence a b turns (d + 1) else d

/-- A chain of interior nodes for the nibbles from `level` to `d`, with `fork` below. -/
def nest (key : UInt64) (fork : HNode V) : Nat → Nat → HNode V
  | 0, _ => fork
  | n + 1, level => .interior (Function.update (fun _ => .null) (nibble key level) (nest key fork n (level + 1)))

/-- `split_leaf`; `none` where a node is refused. -/
def splitLeaf (a : Alloc) (oldKey : UInt64) (oldValue : V) (level : Nat) (key : UInt64) (value : V) :
    Option (HNode V) × Alloc :=
  let d := divergence oldKey key nibbles level
  match a.requests (d - level + 2) with
  | (false, a) => (none, a)
  | (true, a) =>
    let children := Function.update (fun _ => .null) (nibble oldKey d) (HNode.leaf oldKey oldValue)
    let fork := HNode.interior (Function.update children (nibble key d) (.leaf key value))
    (some (nest key fork (d - level) level), a)

/-- Why an insertion did not happen. -/
inductive Fault
  | refused
  | spent
  deriving DecidableEq

/-- `bbq_htree_insert` in a slot: what is in it then, and whether the key is new. -/
def insertAt (a : Alloc) (key : UInt64) (value : V) : HNode V → Nat → Except Fault (HNode V × Bool) × Alloc
  | .null, _ =>
    match a.request with
    | (true, a) => (.ok (.leaf key value, true), a)
    | (false, a) => (.error .refused, a)
  | .leaf k v, level =>
    if k = key then (.ok (.leaf key value, false), a)
    else
      match splitLeaf a k v level key value with
      | (some t, a) => (.ok (t, true), a)
      | (none, a) => (.error .refused, a)
  | .interior children, level =>
    if nibbles ≤ level then (.error .spent, a)
    else
      match insertAt a key value (children (nibble key level)) (level + 1) with
      | (.ok (t, new), a) => (.ok (.interior (Function.update children (nibble key level) t), new), a)
      | (.error fault, a) => (.error fault, a)

/-- A value written through the pointer that a leaf holds. -/
def overwriteAt (key : UInt64) (value : V) : HNode V → Nat → HNode V
  | .null, _ => .null
  | .leaf k v, _ => if k = key then .leaf k value else .leaf k v
  | .interior children, level =>
    .interior (Function.update children (nibble key level)
      (overwriteAt key value (children (nibble key level)) (level + 1)))

/-- `find_leaf`. -/
def findAt (key : UInt64) : HNode V → Nat → Option V
  | .null, _ => none
  | .leaf k v, _ => if k = key then some v else none
  | .interior children, level => if level < nibbles then findAt key (children (nibble key level)) (level + 1) else none

/-- What becomes of an interior node when a child of it was changed, and whether the walk goes on. -/
def collapse (children : Fin 16 → HNode V) : HNode V × Bool :=
  match (List.finRange 16).filter fun i => !(children i).isNull with
  | [] => (.null, true)
  | [i] => if (children i).isLeaf then (children i, true) else (.interior children, false)
  | _ :: _ :: _ => (.interior children, false)

/-- `bbq_htree_delete` in a slot: what is in it then, whether the walk back goes on, and the value. -/
def deleteAt (key : UInt64) : HNode V → Nat → Option (HNode V × Bool × V)
  | .null, _ => none
  | .leaf k v, _ => if k = key then some (.null, true, v) else none
  | .interior children, level =>
    if nibbles ≤ level then none
    else
      match deleteAt key (children (nibble key level)) (level + 1) with
      | none => none
      | some (t, goOn, v) =>
        let children := Function.update children (nibble key level) t
        if goOn then
          let (t, goOn) := collapse children
          some (t, goOn, v)
        else some (.interior children, false, v)

/-- `bbq_htree`. -/
structure HTree (V : Type) where
  root : HNode V
  count : Nat
  oom : Bool
  gen : UInt32

def HTree.init : HTree V := { root := .null, count := 0, oom := false, gen := 0 }

namespace HTree

variable (t : HTree V)

def insert (a : Alloc) (key : UInt64) (value : V) : Bool × HTree V × Alloc :=
  match insertAt a key value t.root 0 with
  | (.ok (root, new), a) =>
    (true, { t with root, count := if new then t.count + 1 else t.count, gen := t.gen + 1 }, a)
  | (.error fault, a) => (false, { t with oom := t.oom || fault == .refused }, a)

def search (key : UInt64) : Option V := findAt key t.root 0

def delete (key : UInt64) : HTree V :=
  match deleteAt key t.root 0 with
  | none => t
  | some (root, _, _) => { t with root, count := t.count - 1, gen := t.gen + 1 }

/-- A value written through the pointer of the key's leaf; the tree does not see it. -/
def overwrite (key : UInt64) (value : V) : HTree V := { t with root := overwriteAt key value t.root 0 }

def clear : HTree V := { t with root := .null, count := 0, gen := t.gen + 1 }

end HTree

/-! ## Keys -/

theorem toNat_nibble {key : UInt64} {level : Nat} (hl : level < 16) :
    (nibble key level).val = key.toNat / 16 ^ (15 - level) % 16 := by
  have hshift : (UInt64.ofNat (60 - level * 4)).toNat % 64 = 4 * (15 - level) := by
    rw [UInt64.toNat_ofNat']
    omega
  rw [nibble, Fin.val_ofNat, UInt64.toNat_shiftRight, hshift, Nat.shiftRight_eq_div_pow, Nat.pow_mul]

/-- Keys that agree on the nibbles before `k` agree on what these make. -/
theorem high_eq {a b : UInt64} {k : Nat} (hk : k ≤ 16) (h : ∀ l < k, nibble a l = nibble b l) :
    a.toNat / 16 ^ (16 - k) = b.toNat / 16 ^ (16 - k) := by
  induction k with
  | zero =>
    have ha := a.toNat_lt
    have hb := b.toNat_lt
    rw [Nat.div_eq_of_lt (by omega), Nat.div_eq_of_lt (by omega)]
  | succ k ih =>
    have hnib := congrArg Fin.val (h k (by omega))
    rw [toNat_nibble (by omega), toNat_nibble (by omega)] at hnib
    have hpow : 16 ^ (16 - k) = 16 ^ (15 - k) * 16 := by
      rw [← Nat.pow_succ]
      congr 1
      omega
    have hprev := ih (by omega) fun l hl => h l (by omega)
    rw [hpow, ← Nat.div_div_eq_div_mul, ← Nat.div_div_eq_div_mul] at hprev
    have hlevel : 16 - (k + 1) = 15 - k := by omega
    rw [hlevel]
    omega

/-- Keys with the same nibbles are the same. -/
theorem eq_of_nibbles {a b : UInt64} (h : ∀ l < 16, nibble a l = nibble b l) : a = b := by
  have hall := high_eq (le_refl 16) h
  rw [Nat.sub_self, Nat.pow_zero, Nat.div_one, Nat.div_one] at hall
  exact UInt64.toNat_inj.mp hall

/-- The first nibble that tells two keys apart orders them. -/
theorem lt_of_nibble {a b : UInt64} {level : Nat} (hlevel : level < 16) (h : ∀ l < level, nibble a l = nibble b l)
    (hlt : nibble a level < nibble b level) : a < b := by
  have hhigh := high_eq (by omega) h
  have hlow : (nibble a level).val < (nibble b level).val := hlt
  rw [toNat_nibble hlevel, toNat_nibble hlevel] at hlow
  have hpow : 16 ^ (16 - level) = 16 ^ (15 - level) * 16 := by
    rw [← Nat.pow_succ]
    congr 1
    omega
  rw [hpow, ← Nat.div_div_eq_div_mul, ← Nat.div_div_eq_div_mul] at hhigh
  rw [UInt64.lt_iff_toNat_lt]
  have hdiv : a.toNat / 16 ^ (15 - level) < b.toNat / 16 ^ (15 - level) := by omega
  exact lt_of_not_ge fun hle => absurd (Nat.div_le_div_right hle) (not_le.mpr hdiv)

/-- Different keys that agree up to `level` are told apart at a nibble from there on. -/
theorem divergence_spec {a b : UInt64} (hne : a ≠ b) {turns level : Nat} (hturns : nibbles ≤ level + turns)
    (hagree : ∀ l < level, nibble a l = nibble b l) (hlevel : level ≤ nibbles) :
    level ≤ divergence a b turns level ∧ divergence a b turns level < nibbles ∧
      nibble a (divergence a b turns level) ≠ nibble b (divergence a b turns level) ∧
      ∀ l < divergence a b turns level, nibble a l = nibble b l := by
  induction turns generalizing level with
  | zero =>
    obtain rfl : level = nibbles := by omega
    exact absurd (eq_of_nibbles hagree) hne
  | succ turns ih =>
    unfold divergence
    split
    · next hsame =>
      have hup : ∀ l < level + 1, nibble a l = nibble b l := by
        intro l hl
        rcases Nat.lt_succ_iff_lt_or_eq.mp hl with hl | rfl
        · exact hagree l hl
        · exact hsame.2
      have hnext := ih (by omega) hup (by omega)
      exact ⟨by omega, hnext.2⟩
    · next hdiff =>
      have hlt : level < nibbles := by
        rcases Nat.lt_or_eq_of_le hlevel with hlt | rfl
        · exact hlt
        · exact absurd (eq_of_nibbles hagree) hne
      exact ⟨le_refl _, hlt, fun hsame => hdiff ⟨hlt, hsame⟩, hagree⟩

end Bbq.Crt
