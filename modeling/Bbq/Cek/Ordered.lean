import Bbq.Cek.Simulate

/-!
# Ordered choice

A choice takes the first arm that succeeds, from the state it was entered in, and what follows it follows.

* `Compiles`: what the productions are called with when a grammar is compiled.
* `Composes`: what a choice does.
* **`choice_composes`**: a choice that a run reaches composes, if the failed checks of the run are clean.
* **`choice_swallows`**: and not else. A savepoint left standing hides the frame of the rule that was called.
-/

namespace Bbq.Cek

open Zcow (Builder)

/-! ## Where a construct is compiled -/

/-- A call of a production. -/
inductive Piece
  | type (t : TypeExpr) (r : Rho) (k : Kont)
  | fields (fs : Fields) (r : Rho) (tail : Kont)
  | arms (vs : Variants) (i : Nat) (r : Rho) (k : Kont)
  | cases (cs : Cases) (r : Rho) (k : Kont)

namespace Piece

def rho : Piece → Rho
  | type _ r _ | fields _ r _ | arms _ _ r _ | cases _ r _ => r

def next : Piece → Kont
  | type _ _ k | fields _ _ k | arms _ _ _ k | cases _ _ k => k

end Piece

/-- What follows the fields of a struct. -/
def fieldsTail (fields : Fields) (constraint : Option Expr) (r : Rho) (k : Kont) : Kont :=
  if fields.hasRest then .popInterval true (wrapWhere constraint r k) else wrapWhere constraint r k

/-- What follows a field. -/
def fieldTail (interval : Option Interval) (body : TypeExpr) (name : String) (scopesRest : Bool) (chain : Kont) : Kont :=
  if scopesRest then .pushInterval true (.ref (.simple name none)) chain
  else match fieldInterval interval body with
    | some _ => .popInterval false chain
    | none => chain

/-- What follows an element. -/
def elementTail (site : LoopSite) (interval : Option Interval) : Kont :=
  match interval with
  | some _ => .popInterval false (.arrayNext site)
  | none => .arrayNext site

/-- **The calls made when `g` is compiled.** -/
inductive Compiles (g : Grammar) : Piece → Prop
  | rule {rule} : rule ∈ g.rules → Compiles g (.type rule.body .root ruleExit)
  | inlined {name fields constraint} : ⟨name, .struct fields constraint⟩ ∈ g.rules →
      Compiles g (.fields fields .root (fieldsTail fields constraint .root ruleExit))
  | struct {fields constraint r k} : Compiles g (.type (.struct fields constraint) r k) →
      Compiles g (.fields fields r (fieldsTail fields constraint r (.endStruct k)))
  | field {name body constraint interval scopesRest rest r tail} :
      Compiles g (.fields (.cons name body constraint interval scopesRest rest) r tail) →
      Compiles g (.type body (inField name r) (fieldTail interval body name scopesRest (compileFields rest r tail)))
  | fields {name body constraint interval scopesRest rest r tail} :
      Compiles g (.fields (.cons name body constraint interval scopesRest rest) r tail) → Compiles g (.fields rest r tail)
  | only {name body constraint interval r k} : Compiles g (.type (.union (.cons name body constraint interval .nil)) r k) →
      Compiles g (.type body r (.endStruct k))
  | choice {name body constraint interval rest r k} :
      Compiles g (.type (.union (.cons name body constraint interval rest)) r k) → rest ≠ .nil →
      Compiles g (.arms (.cons name body constraint interval rest) 0 r k)
  | last {name body constraint interval i r k} : Compiles g (.arms (.cons name body constraint interval .nil) i r k) →
      Compiles g (.type body r (.endStruct (.commitChoice k)))
  | arm {name body constraint interval rest i r k} : Compiles g (.arms (.cons name body constraint interval rest) i r k) →
      rest ≠ .nil → Compiles g (.type body
        (.inAlt (compileArms (.cons name body constraint interval rest) i r (.commitChoice k)).2 r)
        (.endStruct (.commitChoice k)))
  | arms {name body constraint interval rest i r k} : Compiles g (.arms (.cons name body constraint interval rest) i r k) →
      Compiles g (.arms rest (i + 1) r k)
  | element {element spec constraint iv interval resync r k} :
      Compiles g (.type (.array element spec constraint iv interval resync) r k) →
      Compiles g (.type element
        (LoopSite.mk (internFieldOrAnon r) element spec interval resync r (wrapWhere constraint r k)).elemRho
        (elementTail (.mk (internFieldOrAnon r) element spec interval resync r (wrapWhere constraint r k)) interval))
  | separator {element t term constraint iv interval resync r k} :
      Compiles g (.type (.array element (.sepTerm (.type t) term) constraint iv interval resync) r k) →
      Compiles g (.type t (inField "_" (LoopSite.mk (internFieldOrAnon r) element (.sepTerm (.type t) term) interval resync r
        (wrapWhere constraint r k)).elemRho)
        (LoopSite.mk (internFieldOrAnon r) element (.sepTerm (.type t) term) interval resync r
          (wrapWhere constraint r k)).bodyHead)
  | given {element cond interval r k} : Compiles g (.type (.optional element (some cond) interval) r k) →
      Compiles g (.type element r k)
  | tried {element interval r k} : Compiles g (.type (.optional element none interval) r k) →
      Compiles g (.type element (.inOptional (.onFail (some k) none true) r) (.endOptional k))
  | switch {discriminator cases default r k} : Compiles g (.type (.switch discriminator cases default) r k) →
      Compiles g (.cases cases r k)
  | default {discriminator cases t interval r k} :
      Compiles g (.type (.switch discriminator cases (.target t interval)) r k) → Compiles g (.type t r k)
  | case {value target interval rest r k} : Compiles g (.cases (.cons value target interval rest) r k) →
      Compiles g (.type target r k)
  | cases {value target interval rest r k} : Compiles g (.cases (.cons value target interval rest) r k) →
      Compiles g (.cases rest r k)

theorem fieldsTail_recovers {fields : Fields} {constraint : Option Expr} {r : Rho} {k : Kont} (hk : k.recovers = false) :
    (fieldsTail fields constraint r k).recovers = false := by
  unfold fieldsTail
  split
  · rfl
  · exact wrapWhere_recovers hk

theorem fieldTail_recovers {interval : Option Interval} {body : TypeExpr} {name : String} {scopesRest : Bool} {chain : Kont}
    (hk : chain.recovers = false) : (fieldTail interval body name scopesRest chain).recovers = false := by
  unfold fieldTail
  split
  · rfl
  · split
    · rfl
    · exact hk

theorem elementTail_recovers (site : LoopSite) (interval : Option Interval) : (elementTail site interval).recovers = false := by
  cases interval <;> rfl

/-- The link after an arm handles its failure. -/
theorem compileArms_recovers (vs : Variants) (i : Nat) (r : Rho) (commit : Kont) :
    (compileArms vs i r commit).2.recovers = true := by
  rcases vs with _ | ⟨name, body, constraint, interval, _ | _⟩ <;> rfl

/-- **Failures have their handlers** wherever a production is called. -/
theorem Compiles.sited {g : Grammar} {piece : Piece} (h : Compiles g piece) :
    Backs piece.rho ∧ piece.next.recovers = false := by
  induction h with
  | rule => exact ⟨.root, rfl⟩
  | inlined => exact ⟨.root, fieldsTail_recovers rfl⟩
  | struct _ ih => exact ⟨ih.1, fieldsTail_recovers rfl⟩
  | field _ ih => exact ⟨ih.1.inField _, fieldTail_recovers (compileFields_recovers _ _ ih.2)⟩
  | fields _ ih => exact ih
  | only _ ih => exact ⟨ih.1, rfl⟩
  | choice _ _ ih => exact ih
  | last _ ih => exact ⟨ih.1, rfl⟩
  | arm _ _ ih => exact ⟨.inAlt (compileArms_recovers ..), rfl⟩
  | arms _ ih => exact ih
  | element _ ih => exact ⟨Backs.elemRho (s := .mk _ _ _ _ _ _ _) ih.1, elementTail_recovers _ _⟩
  | separator _ ih => exact ⟨(Backs.elemRho (s := .mk _ _ _ _ _ _ _) ih.1).inField _, LoopSite.bodyHead_recovers _⟩
  | given _ ih => exact ih
  | tried _ ih => exact ⟨.inOptional rfl, rfl⟩
  | switch _ ih => exact ih
  | default _ ih => exact ih
  | case _ ih => exact ih
  | cases _ ih => exact ih

/-! ## A choice -/

/-- An arm: its variant's name and its body. -/
def armsOf : Variants → List (String × TypeExpr)
  | .nil => []
  | .cons name body _ _ rest => (name, body) :: armsOf rest

section

variable (p : Program) (n : Nat)

/-- An arm, from the state the choice was entered in, in a scope of its own. -/
def parseArm (call : String → Parser) (name : String) (arm : String × TypeExpr) : Parser := fun s => do
  return (← armParser p false call arm.2 (parse p false n call arm.2 name) (s.openScope .struct arm.1)).closeScope

/-- What a choice that is compiled before `k` makes of `m`: the outcome `o`. -/
structure Composes (m : Machine) (vs : Variants) (r : Rho) (k : Kont) (o : Outcome St) : Prop where
  /-- The run comes to `o`: where that is a state, to `k` in it. -/
  runs : Sim p n 0 m k o
  /-- The first arm that succeeds. -/
  first : ∀ t, o = .ok t ↔ ∃ before arm after, armsOf vs = before ++ arm :: after ∧
    (∀ a ∈ before, parseArm p n (parseRule p false n) (internFieldOrAnon r) a m.state = .fail) ∧
    parseArm p n (parseRule p false n) (internFieldOrAnon r) arm m.state = .ok t
  none : o = .fail ↔ ∀ a ∈ armsOf vs, parseArm p n (parseRule p false n) (internFieldOrAnon r) a m.state = .fail

end

section

variable {p : Program} {n : Nat} {call : String → Parser} {name : String} {s t : St}

theorem parseArms_cons {vname : String} {body : TypeExpr} {constraint : Option Expr} {interval : Option Interval}
    {rest : Variants} : parseArms p false n call (.cons vname body constraint interval rest) name s =
      (parseArm p n call name (vname, body) s).orElse (parseArms p false n call rest name s) := rfl

theorem parseArms_fail (vs : Variants) :
    parseArms p false n call vs name s = .fail ↔ ∀ a ∈ armsOf vs, parseArm p n call name a s = .fail := by
  induction vs using Variants.induct with
  | nil => simp [armsOf, parseArms]
  | cons vname body constraint interval rest ih =>
    rw [parseArms_cons, armsOf, List.forall_mem_cons, ← ih]
    rcases parseArm p n call name (vname, body) s with _ | _ | _ | _ <;> simp [Outcome.orElse]

theorem parseArms_ok (vs : Variants) :
    parseArms p false n call vs name s = .ok t ↔ ∃ before arm after, armsOf vs = before ++ arm :: after ∧
      (∀ a ∈ before, parseArm p n call name a s = .fail) ∧ parseArm p n call name arm s = .ok t := by
  induction vs using Variants.induct with
  | nil => simp [armsOf, parseArms]
  | cons vname body constraint interval rest ih =>
    rw [parseArms_cons, armsOf]
    constructor
    · intro h
      rcases harm : parseArm p n call name (vname, body) s with t' | _ | _ | _
      · rw [harm] at h
        exact ⟨[], _, _, rfl, by simp, harm.trans h⟩
      · rw [harm] at h
        obtain ⟨before, arm, after, hsplit, hbefore, hok⟩ := ih.1 h
        exact ⟨(vname, body) :: before, arm, after, by rw [hsplit]; rfl, List.forall_mem_cons.2 ⟨harm, hbefore⟩, hok⟩
      · rw [harm] at h
        cases h
      · rw [harm] at h
        cases h
    · rintro ⟨_ | ⟨b, before⟩, arm, after, hsplit, hbefore, hok⟩
      · cases hsplit
        rw [hok]
        rfl
      · obtain ⟨rfl, hrest⟩ := List.cons.inj hsplit
        obtain ⟨hfirst, hbefore⟩ := List.forall_mem_cons.1 hbefore
        rw [hfirst]
        exact ih.2 ⟨before, arm, after, hrest, hbefore, hok⟩

/-- A choice that is compiled where failures have their handlers. -/
theorem composes_of_good {m : Machine} {vs : Variants} {r : Rho} {k : Kont} (hg : Good p m) (hne : vs ≠ .nil) (hr : Backs r)
    (hk : k.recovers = false) (hctl : m.control = .run (compile (.union vs) r k)) :
    Composes p n m vs r k (parse p false n (parseRule p false n) (.union vs) (internFieldOrAnon r) m.state) := by
  have hruns := compile_sim rule_sim (.union vs) hg hr hk hctl (n := n)
  have harms : parse p false n (parseRule p false n) (.union vs) (internFieldOrAnon r) m.state =
      parseArms p false n (parseRule p false n) vs (internFieldOrAnon r) m.state := by
    rcases vs with _ | _
    · exact absurd rfl hne
    · rfl
  rw [harms] at hruns ⊢
  exact ⟨hruns, fun t => parseArms_ok vs, parseArms_fail vs⟩

/-- **Ordered choice composes with what follows it**, at every choice of one arm or more that a run from a rule's entry
reaches whose failed checks are clean. -/
theorem choice_composes {name : String} {entry : Kont} (he : p.entry name = some entry)
    (hclean : ∀ i, ((p.start entry).run p i).Clean p) {vs : Variants} {r : Rho} {k : Kont}
    (hsite : Compiles p.grammar (.type (.union vs) r k)) (hne : vs ≠ .nil) (i n : Nat)
    (hctl : ((p.start entry).run p i).control = .run (compile (.union vs) r k)) :
    ∃ o, Composes p n ((p.start entry).run p i) vs r k o :=
  ⟨_, composes_of_good ((Good.start he hclean).run i) hne hsite.sited.1 hsite.sited.2 hctl⟩

end

/-! ## Instances -/

theorem one_small : ([1] : List UInt8).length < 2 ^ 63 := by decide

/-- `I = union { a: uint16, b: uint8 }` on one byte. -/
def plainChoice : Program :=
  { grammar :=
      { defaultLittleEndian := true
        rules := [⟨"I", .union (.cons "a" (.primitive (.integer .w16 .unsigned .default .fixed) none none) none none
          (.cons "b" (.primitive (.integer .w8 .unsigned .default .fixed) none none) none none .nil))⟩] }
    bytes := [1]
    small := one_small
    externs := none }

def plainEntry : Kont := (plainChoice.entry "I").getD .halt

/-- The choice that is the rule, where it is entered. -/
theorem choice_composes_plain : ∃ vs r k,
    ((plainChoice.start plainEntry).run plainChoice 0).control = .run (compile (.union vs) r k) ∧
      ∃ o, Composes plainChoice 3 ((plainChoice.start plainEntry).run plainChoice 0) vs r k o := by
  refine ⟨_, _, _, rfl, @choice_composes _ "I" plainEntry rfl (fun i => ?_) _ _ _
    (@Compiles.rule plainChoice.grammar _ (List.mem_singleton.2 rfl)) (fun h => nomatch h) 0 3 rfl⟩
  intro e onFalse next hctl
  rcases Nat.lt_or_ge i 12 with hi | hi
  · interval_cases i <;> cases hctl
  · have hdone : ((plainChoice.start plainEntry).run plainChoice 12).control = .done := rfl
    cases hctl.symm.trans (Machine.run_done hdone hi)

/-- `Doc = struct { c: I, z: … where it is 7 }`, where `I` is `nestedChoice`, on the bytes 1 and 0. -/
def calledChoice : Program :=
  { grammar :=
      { defaultLittleEndian := true
        rules := ⟨"Doc", .struct (.cons "c" (.ruleRef "I" none none) none none false
          (.cons "z" (checkedByte 7) none none false .nil)) none⟩ :: nestedChoice.grammar.rules }
    bytes := [1, 0]
    small := by decide
    externs := none }

/-- **A choice that swallows what follows it**: the parse ends after `c`, though `z` fails. -/
theorem choice_swallows :
    ∃ entry, calledChoice.entry "Doc" = some entry ∧
      ((calledChoice.start entry).run calledChoice 30).control = .done ∧
      ((calledChoice.start entry).run calledChoice 30).pos = 1 ∧
      (match parseProgram calledChoice false 4 "Doc" with | .fail => true | _ => false) = true :=
  ⟨_, rfl, rfl, rfl, by decide +kernel⟩

end Bbq.Cek
