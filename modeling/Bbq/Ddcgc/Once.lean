import Bbq.Ddcgc.Body

/-!
# What the emitted code of a body evaluates

The emitted code spells some operands more than once: both operands of `==` on strings, the base of a sequence field and
a list that `build` takes apart in C, and the sequence of a `for` in C and of an indexed one in C++.

* `Clean` says of a run of a body that an operand that is evaluated again changes nothing and has the value it had, that
  each `match` takes the first arm that matches, that no initialiser reads or assigns to the name it is for, and that
  no reference of a C++ loop is lost.
* **`evaluated_once`**: in a clean run both emitted codes evaluate each occurrence of a call or `build` as often as the
  body does, and come to the same value.
* `Expr.clean_quiet`: operands without calls, blocks and the like are clean wherever they stand.
-/

namespace Bbq.Ddcgc

open Bbq.Lib

variable (rt : Runtime) (lang : Lang)

/-- What holds of the outcome, if there is one. -/
def After {α : Type} (o : Option (α × State)) (P : α → State → Prop) : Prop := ∀ v st, o = some (v, st) → P v st

/-- Each round is clean, and what it goes from and to is in the relation `keeps`. -/
def CleanFrom (clean : Nat → State → Prop) (round : Nat → State → Option State) (keeps : State → State → Prop) :
    Nat → Nat → State → Prop
  | 0, _, _ => True
  | left + 1, i, st => clean i st ∧ ∀ st', round i st = some st' → keeps st st' ∧ CleanFrom clean round keeps left (i + 1) st'

mutual

/-- **A run of an expression in which nothing is evaluated twice to another effect.** -/
def Expr.Clean : Expr → State → Prop
  | .const _, _ | .ident _, _ => True
  | .ternary cond then_ else_, st =>
    cond.Clean st ∧ After (cond.eval rt st) fun v st =>
      (v.truth = some true → then_.Clean st) ∧ (v.truth = some false → else_.Clean st)
  | .logic isAnd left right, st =>
    left.Clean st ∧ After (left.eval rt st) fun v st => v.truth = some isAnd → right.Clean st
  | .stringEq _ left right, st =>
    left.Clean st ∧ After (left.eval rt st) fun v st => right.Clean st ∧ After (right.eval rt st) fun w st =>
      lang = .c → rt.samePointer v w = some true ∨
        (left.Clean st ∧ left.eval rt st = some (v, st)) ∧
          (v ≠ .string none → right.Clean st ∧ right.eval rt st = some (w, st))
  | .strict _ args, st | .call _ args, st => args.Clean st
  | .seqField base _, st =>
    base.Clean st ∧ After (base.eval rt st) fun v st => lang = .c → base.Clean st ∧ base.eval rt st = some (v, st)
  | .build _ args, st => args.CleanUnpacked st
  | .match_ m _ subject arms, st =>
    subject.Clean st ∧ After (subject.eval rt st) fun v st =>
      m.ran lang v = some (m.choice v).toList ∧ ∀ i env, m.choice v = some (i, env) → arms.Clean i (st.push env)
  | .block body, st => body.Clean (st.push .empty)

def Exprs.Clean : Exprs → State → Prop
  | .nil, _ => True
  | .cons _ head tail, st => head.Clean st ∧ After (head.eval rt st) fun _ st => tail.Clean st

/-- The arguments of `build`. -/
def Exprs.CleanUnpacked : Exprs → State → Prop
  | .nil, _ => True
  | .cons unpacked head tail, st =>
    head.Clean st ∧ After (head.eval rt st) fun v st =>
      (lang = .c ∧ unpacked = true → head.Clean st ∧ head.eval rt st = some (v, st) ∧ v.fromArr v ≠ none) ∧
        tail.CleanUnpacked st

def Body.Clean : Body → State → Prop
  | .done, _ => True
  | .tail value, st => value.Clean st
  | .let_ x value more, st =>
    value.Clean (st.declare x) ∧
      (value.eval rt (st.declare x)).map (fun (v, st) => st.bind x v) =
        (value.eval rt st).map (fun (v, st) => st.bind x v) ∧
      After (value.eval rt st) fun v st => more.Clean (st.bind x v)
  | .letTuple binds value more, st =>
    -- the names are declared before the value is known
    let declared := if lang = .cpp then binds.foldl State.declare st else st
    value.Clean declared ∧
      ((value.eval rt declared).bind fun (v, st) => rt.bindTuple v binds 0 st) =
        ((value.eval rt st).bind fun (v, st) => rt.bindTuple v binds 0 st) ∧
      After (value.eval rt st) fun v st => ∀ st', rt.bindTuple v binds 0 st = some st' → more.Clean st'
  | .assign x value more, st =>
    value.Clean st ∧ After (value.eval rt st) fun v st => ∀ st', st.assign x v = some st' → more.Clean st'
  | .for_ iter index seq body more, st =>
    seq.Clean st ∧ After (seq.eval rt st) fun v st => ∀ n elem, v = .list n elem →
      let counted (i : Nat) (st : State) : State := (st.push .empty).bind index.join (.int i)
      let enter (i : Nat) (st : State) : State := (counted i st).bind iter (elem i)
      let round (i : Nat) (st : State) : Option State := (body.eval rt (enter i st)).map fun (_, st) => st.pop
      CleanFrom
          (fun i st => body.Clean (enter i st) ∧ (byIndex lang index = true → iter.isSome = true →
            seq.Clean ((counted i st).declare iter) ∧
              (seq.eval rt ((counted i st).declare iter)).map (fun (w, st) => (w, st.bind iter (elem i))) =
                some (v, enter i st)))
          round
          (fun before st' => (byIndex lang index = true → seq.Clean st' ∧ seq.eval rt st' = some (v, st')) ∧
            ∃ vars, references lang iter (byIndex lang index) seq
                (if byIndex lang index then before.scopes else st.scopes) = some vars ∧
              before.touched st' vars = false)
          n 0 st ∧
        ∀ st', eachFrom round n 0 st = some st' → more.Clean st'
  | .if_ cond then_ else_ more, st =>
    cond.Clean st ∧ After (cond.eval rt st) fun v st =>
      (v.truth = some true → then_.Clean (st.push .empty) ∧
        After (then_.eval rt (st.push .empty)) fun _ st => more.Clean st.pop) ∧
      (v.truth = some false → else_.Clean (st.push .empty) ∧
        After (else_.eval rt (st.push .empty)) fun _ st => more.Clean st.pop)
  | .label site x more, st => more.Clean ((rt.call site st).2.bind (some x) (rt.call site st).1)
  | .expr value more, st => value.Clean st ∧ After (value.eval rt st) fun _ st => more.Clean st

def Arms.Clean : Arms → Nat → State → Prop
  | .nil, _, _ => True
  | .cons body _, 0, st => body.Clean st
  | .cons _ more, i + 1, st => more.Clean i st

end

/-! ## Clean runs -/

variable {rt lang}

/-- A step of a run and what follows it. -/
theorem settles_bind {α β : Type} {f : Nat → Option (α × State)} {g : Nat → α × State → Option β} {o : Option (α × State)}
    {k : α × State → Option β} {r : β} (h : o.bind k = some r) (hf : ∀ x, o = some x → Settles f x)
    (hg : ∀ x, o = some x → k x = some r → Settles (fun n => g n x) r) : Settles (fun n => (f n).bind (g n)) r := by
  obtain ⟨x, hx, hk⟩ := Option.bind_eq_some_iff.mp h
  exact (hf x hx).bind (hg x hx hk)

theorem settles_map {α β : Type} {f : Nat → Option α} {g : α → β} {o : Option α} {r : β} (h : o.map g = some r)
    (hf : ∀ x, o = some x → Settles f x) : Settles (fun n => (f n).map g) r := by
  obtain ⟨x, hx, rfl⟩ := Option.map_eq_some_iff.mp h
  exact (hf x hx).map g

/-- `==` of strings in C, whose operands are evaluated again to nothing else. -/
theorem settles_strcmp {negated same : Bool} {v w : Value} {st : State} {left right : Nat → State → Option (Value × State)}
    (hsame : v.sameString w = some same)
    (hagain : rt.samePointer v w = some true ∨ Settles (fun n => left n st) (v, st) ∧
      (v ≠ .string none → Settles (fun n => right n st) (w, st))) :
    Settles (fun n => (rt.samePointer v w).bind fun same =>
      if same then some (Value.bool (true != negated), st)
      else (left n st).bind fun (v, st) =>
        if v matches .string none then some (Value.bool (false != negated), st)
        else (right n st).bind fun (w, st) =>
          if w matches .string none then some (Value.bool (false != negated), st)
          else (left n st).bind fun (v, st) => (right n st).bind fun (w, st) =>
            (v.sameString w).map fun same => (Value.bool (same != negated), st)) (Value.bool (same != negated), st) := by
  match v, w with
  | .string none, .string none =>
    obtain rfl : true = same := Option.some.inj hsame
    exact .of_forall fun _ => rfl
  | .string none, .string (some t) =>
    obtain rfl : false = same := Option.some.inj hsame
    simp only [Runtime.samePointer, Option.bind_some, Bool.false_eq_true, if_false]
    exact (hagain.resolve_left nofun).1.bind (.of_forall fun _ => rfl)
  | .string (some s), .string none =>
    obtain rfl : false = same := Option.some.inj hsame
    obtain ⟨hleft, hright⟩ := hagain.resolve_left nofun
    simp only [Runtime.samePointer, Option.bind_some, Bool.false_eq_true, if_false]
    exact hleft.bind ((hright nofun).bind (.of_forall fun _ => rfl))
  | .string (some s), .string (some t) =>
    simp only [Runtime.samePointer, Option.bind_some]
    cases hptr : rt.samePtr s t with
    | true =>
      obtain rfl : true = same := by
        rw [← Option.some.inj hsame, rt.samePtr_eq s t hptr]
        exact (beq_self_eq_true _).symm
      exact .of_forall fun _ => rfl
    | false =>
      obtain ⟨hleft, hright⟩ := hagain.resolve_left fun h => by
        rw [Runtime.samePointer, hptr] at h
        exact absurd h nofun
      have hright := hright nofun
      simp only [Bool.false_eq_true, if_false]
      refine hleft.bind (hright.bind (hleft.bind (hright.bind (.of_forall fun _ => ?_))))
      simp only [hsame, Option.map_some]

/-- Rounds over a list that is evaluated once. -/
theorem settles_eachFrom {round : Nat → State → Option State} {run : Nat → Nat → State → Option State}
    {clean : Nat → State → Prop} {keeps : State → State → Prop}
    (hround : ∀ i st st', clean i st → round i st = some st' → keeps st st' → Settles (fun n => run n i st) st')
    {left i : Nat} {st st' : State} (hclean : CleanFrom clean round keeps left i st)
    (h : eachFrom round left i st = some st') : Settles (fun n => eachFrom (run n) left i st) st' := by
  induction left generalizing i st with
  | zero => exact .of_forall fun _ => h
  | succ left ih =>
    obtain ⟨hfirst, hrest⟩ := hclean
    obtain ⟨st₁, h₁, h⟩ := Option.bind_eq_some_iff.mp h
    obtain ⟨hkeeps, hrest⟩ := hrest st₁ h₁
    exact (hround i st st₁ hfirst h₁ hkeeps).bind (ih hrest h)

/-- Rounds before each of which the bound is evaluated, to the same list and to nothing else. -/
theorem settles_rounds {round : Nat → State → Option State} {run : Nat → Nat → State → Option State}
    {bound : Nat → State → Option (Value × State)} {clean : Nat → State → Prop} {keeps : State → State → Prop}
    {count : Nat} {elem : Nat → Value}
    (hround : ∀ i st st', i < count → clean i st → round i st = some st' → keeps st st' → Settles (fun n => run n i st) st')
    (hbound : ∀ st st', keeps st st' → Settles (fun n => bound n st') (.list count elem, st'))
    {left i : Nat} {st₀ st st' : State} (hcount : i + left = count)
    (hfirst : Settles (fun n => bound n st₀) (.list count elem, st)) (hclean : CleanFrom clean round keeps left i st)
    (h : eachFrom round left i st = some st') : Settles (fun n => rounds (bound n) (run n) n i st₀) st' := by
  -- the fuel of the rounds and that of what they run are let grow on their own
  suffices hboth : ∃ N, ∀ n, N ≤ n → ∀ m, N ≤ m → rounds (bound n) (run n) m i st₀ = some st' by
    obtain ⟨N, hN⟩ := hboth
    exact ⟨N, fun n hn => hN n hn n hn⟩
  induction left generalizing i st₀ st with
  | zero =>
    obtain ⟨N, hN⟩ := hfirst
    refine ⟨N + 1, fun n hn m hm => ?_⟩
    obtain ⟨m, rfl⟩ : ∃ k, m = k + 1 := ⟨m - 1, by omega⟩
    have hdone : ¬i < count := by omega
    simp only [rounds, hN n (by omega), Option.bind_some, if_neg hdone]
    exact h
  | succ left ih =>
    obtain ⟨hhead, hrest⟩ := hclean
    obtain ⟨st₁, h₁, h⟩ := Option.bind_eq_some_iff.mp h
    obtain ⟨hkeeps, hrest⟩ := hrest st₁ h₁
    have hlt : i < count := by omega
    obtain ⟨N, hN⟩ := hfirst
    obtain ⟨M, hM⟩ := hround i st st₁ hlt hhead h₁ hkeeps
    obtain ⟨K, hK⟩ := ih (by omega) (hbound st st₁ hkeeps) hrest h
    refine ⟨max N (max M K) + 1, fun n hn m hm => ?_⟩
    obtain ⟨m, rfl⟩ : ∃ k, m = k + 1 := ⟨m - 1, by omega⟩
    simp only [rounds, hN n (by omega), Option.bind_some, if_pos hlt, hM n (by omega)]
    exact hK n (by omega) m (by omega)

theorem references_plain (lang : Lang) (iter : Option Name) (seq : Expr) (scopes : List Frame) :
    ∃ vars, references lang iter false seq scopes = some vars := by
  unfold references
  cases lang with
  | c => exact ⟨_, rfl⟩
  | cpp =>
    cases iter with
    | none => exact ⟨_, rfl⟩
    | some x =>
      cases seq.refersTo scopes with
      | none => exact ⟨_, rfl⟩
      | some vars => exact ⟨_, rfl⟩

/-- A reference that holds. -/
theorem settles_unlessTouched {vars : List (Nat × Name)} {run : Nat → State → Option State} {st st' : State}
    (h : Settles (fun n => run n st) st') (htouched : st.touched st' vars = false) :
    Settles (fun n => unlessTouched vars (run n) st) st' := by
  obtain ⟨N, hN⟩ := h
  refine ⟨N, fun n hn => ?_⟩
  simp only [unlessTouched, hN n hn, Option.filter_some, htouched, Bool.not_false, if_true]

mutual

/-- **The code of an expression** does in a clean run what the expression means. -/
theorem Expr.settles (e : Expr) {st : State} {r : Value × State} (hc : e.Clean rt lang st) (h : e.eval rt st = some r) :
    Settles (fun fuel => e.run rt lang fuel st) r := by
  cases e with
  | const v => exact .of_forall fun _ => h
  | ident x => exact .of_forall fun _ => h
  | ternary cond then_ else_ =>
    refine settles_bind h (fun x hx => cond.settles hc.1 hx) fun (v, st) hx h => ?_
    obtain ⟨b, hb, h⟩ := Option.bind_eq_some_iff.mp h
    obtain ⟨hthen, helse⟩ := hc.2 v st hx
    simp only [hb, Option.bind_some]
    cases b with
    | true => exact then_.settles (hthen hb) h
    | false => exact else_.settles (helse hb) h
  | logic isAnd left right =>
    refine settles_bind h (fun x hx => left.settles hc.1 hx) fun (v, st) hx h => ?_
    obtain ⟨b, hb, h⟩ := Option.bind_eq_some_iff.mp h
    have hright := hc.2 v st hx
    simp only [hb, Option.bind_some]
    by_cases hand : b = isAnd
    · rw [hand] at hb h
      rw [if_pos rfl] at h
      simp only [hand, if_true]
      exact right.settles (hright hb) h
    · rw [if_neg hand] at h
      simp only [if_neg hand]
      exact .of_forall fun _ => h
  | stringEq negated left right =>
    refine settles_bind h (fun x hx => left.settles hc.1 hx) fun (v, st) hx h => ?_
    obtain ⟨hright, hagain⟩ := hc.2 v st hx
    refine settles_bind h (fun x hx => right.settles hright hx) fun (w, st) hy h => ?_
    obtain ⟨same, hsame, rfl⟩ := Option.map_eq_some_iff.mp h
    have hagain : lang = .c → rt.samePointer v w = some true ∨ Settles (fun n => left.run rt lang n st) (v, st) ∧
        (v ≠ .string none → Settles (fun n => right.run rt lang n st) (w, st)) := by
      intro hlang
      refine (hagain w st hy hlang).imp_right fun ⟨⟨hl, hle⟩, hr⟩ => ⟨left.settles hl hle, fun hne => ?_⟩
      exact right.settles (hr hne).1 (hr hne).2
    cases lang with
    | c => exact settles_strcmp hsame (hagain rfl)
    | cpp => exact .of_forall fun _ => h
  | strict op args =>
    refine settles_bind h (fun x hx => args.settles hc hx) fun (vs, st) _ h => ?_
    exact .of_forall fun _ => h
  | seqField base field =>
    refine settles_bind h (fun x hx => base.settles hc.1 hx) fun (v, st) hx h => ?_
    have hagain : lang = .c → Settles (fun n => base.run rt lang n st) (v, st) := fun hlang =>
      base.settles (hc.2 v st hx hlang).1 (hc.2 v st hx hlang).2
    obtain ⟨elems, helems, h⟩ := Option.bind_eq_some_iff.mp h
    simp only [helems, Option.bind_some]
    cases lang with
    | cpp => exact .of_forall fun _ => h
    | c =>
      refine (hagain rfl).bind ?_
      simp only [helems, Option.bind_some]
      exact .of_forall fun _ => h
  | call site args => exact settles_map h fun x hx => args.settles hc hx
  | build site args =>
    obtain ⟨⟨vs, st'⟩, hargs, rfl⟩ := Option.map_eq_some_iff.mp h
    obtain ⟨ws, hrun⟩ := args.settles_unpack hc hargs
    exact hrun.map _
  | match_ m zero subject arms =>
    refine settles_bind h (fun x hx => subject.settles hc.1 hx) fun (v, st) hx h => ?_
    obtain ⟨hran, harms⟩ := hc.2 v st hx
    simp only [hran, Option.bind_some]
    refine settles_map h fun x hx => ?_
    cases hchoice : m.choice v with
    | none =>
      rw [hchoice] at hx
      exact .of_forall fun _ => hx
    | some choice =>
      obtain ⟨i, env⟩ := choice
      rw [hchoice] at hx
      refine settles_bind hx (fun y hy => arms.settles (harms i env hchoice) hy) fun (w, st) _ hx => ?_
      exact .of_forall fun _ => hx
  | block body =>
    refine settles_bind h (fun x hx => body.settles hc hx) fun (v, st) _ h => ?_
    exact .of_forall fun _ => h

theorem Exprs.settles (es : Exprs) {st : State} {r : List Value × State} (hc : es.Clean rt lang st)
    (h : es.eval rt st = some r) : Settles (fun fuel => es.run rt lang fuel st) r := by
  cases es with
  | nil => exact .of_forall fun _ => h
  | cons unpacked head tail =>
    refine settles_bind h (fun x hx => head.settles hc.1 hx) fun (v, st) hx h => ?_
    exact settles_map h fun x hy => tail.settles (hc.2 v st hx) hy

theorem Exprs.settles_unpack (es : Exprs) {st : State} {r : List Value × State} (hc : es.CleanUnpacked rt lang st)
    (h : es.eval rt st = some r) : ∃ vs, Settles (fun fuel => es.unpack rt lang fuel st) (vs, r.2) := by
  cases es with
  | nil => exact ⟨[], .of_forall fun _ => by rw [← Option.some.inj h]; rfl⟩
  | cons unpacked head tail =>
    obtain ⟨⟨v, st'⟩, hv, h⟩ := Option.bind_eq_some_iff.mp h
    obtain ⟨⟨vs, st''⟩, hvs, rfl⟩ := Option.map_eq_some_iff.mp h
    obtain ⟨hagain, htail⟩ := hc.2 v st' hv
    obtain ⟨ws, hws⟩ := tail.settles_unpack htail hvs
    by_cases hunpacked : lang = .c ∧ unpacked = true
    · obtain ⟨hhead, hsame, hlist⟩ := hagain hunpacked
      obtain ⟨u, hu⟩ := Option.ne_none_iff_exists'.mp hlist
      refine ⟨u :: ws, (head.settles hc.1 hv).bind ?_⟩
      simp only [if_pos hunpacked]
      refine (head.settles hhead hsame).bind ?_
      simp only [hu, Option.bind_some]
      exact hws.map _
    · refine ⟨v :: ws, (head.settles hc.1 hv).bind ?_⟩
      simp only [if_neg hunpacked]
      exact hws.map _

theorem Body.settles (b : Body) {st : State} {r : Option Value × State} (hc : b.Clean rt lang st)
    (h : b.eval rt st = some r) : Settles (fun fuel => b.run rt lang fuel st) r := by
  cases b with
  | done => exact .of_forall fun _ => h
  | tail value => exact settles_map h fun x hx => value.settles hc hx
  | let_ x value more =>
    obtain ⟨hvalue, hsame, hmore⟩ := hc
    obtain ⟨⟨v, st₁⟩, hv, h⟩ := Option.bind_eq_some_iff.mp h
    rw [hv, Option.map_some] at hsame
    obtain ⟨⟨w, st₂⟩, hw, hbind⟩ := Option.map_eq_some_iff.mp hsame
    refine (value.settles hvalue hw).bind ?_
    dsimp only at hbind ⊢
    rw [hbind]
    exact more.settles (hmore v st₁ hv) h
  | letTuple binds value more =>
    obtain ⟨hvalue, hsame, hmore⟩ := hc
    obtain ⟨⟨v, st₁⟩, hv, h⟩ := Option.bind_eq_some_iff.mp h
    obtain ⟨st', hbound, h⟩ := Option.bind_eq_some_iff.mp h
    rw [hv, Option.bind_some] at hsame
    dsimp only at hbound hsame
    rw [hbound] at hsame
    obtain ⟨⟨w, st₂⟩, hw, hbind⟩ := Option.bind_eq_some_iff.mp hsame
    refine (value.settles hvalue hw).bind ?_
    simp only [hbind, Option.bind_some]
    exact more.settles (hmore v st₁ hv st' hbound) h
  | assign x value more =>
    refine settles_bind h (fun x hx => value.settles hc.1 hx) fun (v, st) hx h => ?_
    obtain ⟨st', hassign, h⟩ := Option.bind_eq_some_iff.mp h
    simp only [hassign, Option.bind_some]
    exact more.settles (hc.2 v st hx st' hassign) h
  | for_ iter index seq body more =>
    obtain ⟨hseq, hafter⟩ := hc
    obtain ⟨⟨v, st₁⟩, hv, h⟩ := Option.bind_eq_some_iff.mp h
    cases v with
    | list n elem =>
      obtain ⟨st', heach, h⟩ := Option.bind_eq_some_iff.mp h
      obtain ⟨hclean, hmore⟩ := hafter _ st₁ hv n elem rfl
      refine Settles.bind (a := st') ?_ (more.settles (hmore st' heach) h)
      cases hindexed : byIndex lang index with
      | true =>
        simp only [hindexed, if_true] at hclean ⊢
        refine settles_rounds ?_ (fun st st' hkeeps => ?_) (Nat.zero_add n) (seq.settles hseq hv) hclean heach
        · rintro i st st' hlt ⟨hbody, hread⟩ hround ⟨-, vars, hvars, htouched⟩
          simp only [hvars, Option.bind_some]
          refine settles_unlessTouched ?_ htouched
          have hruns := settles_map hround fun x hx => body.settles hbody hx
          cases iter with
          | none => exact hruns
          | some x =>
            obtain ⟨hseq', hsame⟩ := hread trivial rfl
            obtain ⟨⟨w, st₂⟩, hw, hbind⟩ := Option.map_eq_some_iff.mp hsame
            obtain ⟨rfl, hbind⟩ := Prod.mk.inj hbind
            simp only [Option.isSome_some, if_true]
            refine Settles.bind ((seq.settles hseq' hw).bind ?_) hruns
            simp only [Value.at, if_pos hlt, Option.map_some, hbind]
            exact .const _
        · obtain ⟨hseq', hsame⟩ := hkeeps.1 trivial
          exact seq.settles hseq' hsame
      | false =>
        simp only [hindexed, Bool.false_eq_true, if_false] at hclean ⊢
        refine (seq.settles hseq hv).bind ?_
        obtain ⟨vars, hvars⟩ := references_plain lang iter seq st₁.scopes
        simp only [hvars, Option.bind_some] at hclean ⊢
        refine settles_eachFrom ?_ hclean heach
        rintro i st st' ⟨hbody, -⟩ hround ⟨-, vars', hvars', htouched⟩
        rw [← Option.some.inj hvars'] at htouched
        refine settles_unlessTouched ?_ htouched
        have hruns := settles_map hround fun x hx => body.settles hbody hx
        cases index with
        | none => exact hruns
        | some index =>
          rw [byIndex, Option.isSome_some, Bool.or_true] at hindexed
          exact absurd hindexed nofun
    | null | int | string | enum | node | array | other => exact absurd h nofun
  | if_ cond then_ else_ more =>
    refine settles_bind h (fun x hx => cond.settles hc.1 hx) fun (v, st) hx h => ?_
    obtain ⟨b, hb, h⟩ := Option.bind_eq_some_iff.mp h
    obtain ⟨hthen, helse⟩ := hc.2 v st hx
    simp only [hb, Option.bind_some]
    cases b with
    | true =>
      obtain ⟨hthen, hmore⟩ := hthen hb
      exact settles_bind h (fun x hx => then_.settles hthen hx) fun (w, st) hx h => more.settles (hmore w st hx) h
    | false =>
      obtain ⟨helse, hmore⟩ := helse hb
      exact settles_bind h (fun x hx => else_.settles helse hx) fun (w, st) hx h => more.settles (hmore w st hx) h
  | label site x more => exact more.settles hc h
  | expr value more =>
    exact settles_bind h (fun x hx => value.settles hc.1 hx) fun (v, st) hx h => more.settles (hc.2 v st hx) h

theorem Arms.settles (as : Arms) {i : Nat} {st : State} {r : Option Value × State} (hc : as.Clean rt lang i st)
    (h : as.eval rt i st = some r) : Settles (fun fuel => as.run rt lang fuel i st) r := by
  cases as with
  | nil => exact absurd h nofun
  | cons body more =>
    cases i with
    | zero => exact body.settles hc h
    | succ i => exact more.settles hc h

end

/-! ## Quiet expressions -/

mutual

/-- An expression without calls, `build`, `match` and blocks. -/
def Expr.quiet : Expr → Bool
  | .const _ | .ident _ => true
  | .ternary cond then_ else_ => cond.quiet && then_.quiet && else_.quiet
  | .logic _ left right | .stringEq _ left right => left.quiet && right.quiet
  | .strict _ args => args.quiet
  | .seqField base _ => base.quiet
  | .call _ _ | .build _ _ | .match_ _ _ _ _ | .block _ => false

def Exprs.quiet : Exprs → Bool
  | .nil => true
  | .cons _ head tail => head.quiet && tail.quiet

end

mutual

theorem Expr.eval_quiet (e : Expr) {st st' : State} {v : Value} (hq : e.quiet = true) (h : e.eval rt st = some (v, st')) :
    st' = st := by
  cases e with
  | const v => exact (Prod.mk.inj (Option.some.inj h)).2.symm
  | ident x =>
    obtain ⟨w, -, hw⟩ := Option.map_eq_some_iff.mp h
    exact (Prod.mk.inj hw).2.symm
  | ternary cond then_ else_ =>
    obtain ⟨hq, helse⟩ := Bool.and_eq_true_iff.mp hq
    obtain ⟨hcond, hthen⟩ := Bool.and_eq_true_iff.mp hq
    obtain ⟨⟨w, st₁⟩, hw, h⟩ := Option.bind_eq_some_iff.mp h
    obtain ⟨b, -, h⟩ := Option.bind_eq_some_iff.mp h
    rw [← cond.eval_quiet hcond hw]
    cases b with
    | true => exact then_.eval_quiet hthen h
    | false => exact else_.eval_quiet helse h
  | logic isAnd left right =>
    obtain ⟨hleft, hright⟩ := Bool.and_eq_true_iff.mp hq
    obtain ⟨⟨w, st₁⟩, hw, h⟩ := Option.bind_eq_some_iff.mp h
    obtain ⟨b, -, h⟩ := Option.bind_eq_some_iff.mp h
    rw [← left.eval_quiet hleft hw]
    split at h
    · exact right.eval_quiet hright h
    · exact (Prod.mk.inj (Option.some.inj h)).2.symm
  | stringEq negated left right =>
    obtain ⟨hleft, hright⟩ := Bool.and_eq_true_iff.mp hq
    obtain ⟨⟨w, st₁⟩, hw, h⟩ := Option.bind_eq_some_iff.mp h
    obtain ⟨⟨u, st₂⟩, hu, h⟩ := Option.bind_eq_some_iff.mp h
    obtain ⟨same, -, h⟩ := Option.map_eq_some_iff.mp h
    rw [← left.eval_quiet hleft hw, ← right.eval_quiet hright hu]
    exact (Prod.mk.inj h).2.symm
  | strict op args =>
    obtain ⟨⟨ws, st₁⟩, hws, h⟩ := Option.bind_eq_some_iff.mp h
    obtain ⟨w, -, h⟩ := Option.map_eq_some_iff.mp h
    rw [← args.eval_quiet hq hws]
    exact (Prod.mk.inj h).2.symm
  | seqField base field =>
    obtain ⟨⟨w, st₁⟩, hw, h⟩ := Option.bind_eq_some_iff.mp h
    obtain ⟨u, -, h⟩ := Option.bind_eq_some_iff.mp h
    obtain ⟨l, -, h⟩ := Option.map_eq_some_iff.mp h
    rw [← base.eval_quiet hq hw]
    exact (Prod.mk.inj h).2.symm
  | call | build | match_ | block => exact absurd hq nofun

theorem Exprs.eval_quiet (es : Exprs) {st st' : State} {vs : List Value} (hq : es.quiet = true)
    (h : es.eval rt st = some (vs, st')) : st' = st := by
  cases es with
  | nil => exact (Prod.mk.inj (Option.some.inj h)).2.symm
  | cons unpacked head tail =>
    obtain ⟨hhead, htail⟩ := Bool.and_eq_true_iff.mp hq
    obtain ⟨⟨w, st₁⟩, hw, h⟩ := Option.bind_eq_some_iff.mp h
    obtain ⟨⟨ws, st₂⟩, hws, h⟩ := Option.map_eq_some_iff.mp h
    rw [← head.eval_quiet hhead hw, ← tail.eval_quiet htail hws]
    exact (Prod.mk.inj h).2.symm

end

mutual

/-- **Quiet expressions are clean**, and so is what evaluates them again. -/
theorem Expr.clean_quiet (e : Expr) {st : State} (hq : e.quiet = true) : e.Clean rt lang st := by
  cases e with
  | const | ident => trivial
  | ternary cond then_ else_ =>
    obtain ⟨hq, helse⟩ := Bool.and_eq_true_iff.mp hq
    obtain ⟨hcond, hthen⟩ := Bool.and_eq_true_iff.mp hq
    exact ⟨cond.clean_quiet hcond, fun v st _ => ⟨fun _ => then_.clean_quiet hthen, fun _ => else_.clean_quiet helse⟩⟩
  | logic isAnd left right =>
    obtain ⟨hleft, hright⟩ := Bool.and_eq_true_iff.mp hq
    exact ⟨left.clean_quiet hleft, fun v st _ _ => right.clean_quiet hright⟩
  | stringEq negated left right =>
    obtain ⟨hleft, hright⟩ := Bool.and_eq_true_iff.mp hq
    refine ⟨left.clean_quiet hleft, fun v st₁ hv => ⟨right.clean_quiet hright, fun w st₂ hw _ => .inr ?_⟩⟩
    obtain rfl := left.eval_quiet hleft hv
    obtain rfl := right.eval_quiet hright hw
    exact ⟨⟨left.clean_quiet hleft, hv⟩, fun _ => ⟨right.clean_quiet hright, hw⟩⟩
  | strict op args => exact args.clean_quiet hq
  | seqField base field =>
    refine ⟨base.clean_quiet hq, fun v st₁ hv _ => ⟨base.clean_quiet hq, ?_⟩⟩
    obtain rfl := base.eval_quiet hq hv
    exact hv
  | call | build | match_ | block => exact absurd hq nofun

theorem Exprs.clean_quiet (es : Exprs) {st : State} (hq : es.quiet = true) : es.Clean rt lang st := by
  cases es with
  | nil => trivial
  | cons unpacked head tail =>
    obtain ⟨hhead, htail⟩ := Bool.and_eq_true_iff.mp hq
    exact ⟨head.clean_quiet hhead, fun v st _ => tail.clean_quiet htail⟩

end

/-! ## Once -/

variable (rt) in
/-- **Both emitted codes evaluate each occurrence of a call or `build` as often as the body does**, and come to the
same value. -/
def Once (body : Body) (st : State) : Prop :=
  ∀ v st', body.eval rt st = some (v, st') → ∀ lang, ∃ st'',
    Settles (fun fuel => body.run rt lang fuel st) (v, st'') ∧ st''.count = st'.count

/-- **A clean run evaluates everything once.** -/
theorem evaluated_once (rt : Runtime) (body : Body) (st : State) (hclean : ∀ lang, body.Clean rt lang st) :
    Once rt body st := by
  intro v st' h lang
  exact ⟨st', body.settles (hclean lang) h, rfl⟩

/-- A function that is called yields a number, and lists and accesses are what they are. -/
def plainRuntime : Runtime where
  result := fun site visit => .int (site + visit)
  op := fun
    | .listLit, vs => some (.list vs.length fun i => vs.getD i .null)
    | _, vs => vs.head?
  samePtr := fun _ _ => false
  samePtr_eq := fun _ _ h => absurd h nofun

/-- `s` and `t` are strings. -/
def twoStrings : State where
  scopes := [fun
    | "s" => some (some (.string (some [97])))
    | "t" => some (some (.string (some [98])))
    | _ => none]
  assigned := []
  count := fun _ => 0

/-- `let x = f(); s == t`. -/
def compares : Body := .let_ (some "x") (.call 0 .nil) (.tail (.stringEq false (.ident "s") (.ident "t")))

theorem evaluated_once_compares : Once plainRuntime compares twoStrings :=
  evaluated_once plainRuntime compares twoStrings fun _ =>
    ⟨trivial, congrArg some (State.bind_declare (plainRuntime.call 0 twoStrings).2 (some "x") _),
      fun _ _ _ => Expr.clean_quiet _ rfl⟩

/-- `build ir.Seq([g()])`. -/
def buildsList : Body := .tail (.build 0 (.cons true (.strict .listLit (.cons false (.call 1 .nil) .nil)) .nil))

/-- C evaluates the list for its elements and again for its length, and calls `g` twice. -/
theorem list_built_twice : ¬Once plainRuntime buildsList twoStrings := by
  intro h
  obtain ⟨st', hruns, hcount⟩ := h _ _ rfl .c
  have htwice : st'.count 1 = 2 :=
    congrArg (fun r : Option Value × State => r.2.count 1) (hruns.unique (.of_forall fun _ => rfl))
  have hone : st'.count 1 = 1 := congrFun hcount 1
  rw [htwice] at hone
  exact absurd hone (by decide)

end Bbq.Ddcgc
