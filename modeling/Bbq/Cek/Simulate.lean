import Bbq.Cek.Loop

/-!
# The machine follows the grammar

What each production compiles to runs as the construct's meaning says (`parse` with `all` false), for runs whose
failed checks are clean (`Good`).

* `compile_sim` and its companions, one for each nonterminal of the grammar.
* `rule_sim`: a rule that is called.
* **`reached_sim`**: an array that a run reaches.
-/

namespace Bbq.Cek

open Zcow (Builder)

/-! ## What is compiled handles no failure -/

theorem wrapWhere_recovers {constraint : Option Expr} {r : Rho} {k : Kont} (hk : k.recovers = false) :
    (wrapWhere constraint r k).recovers = false := by
  rcases constraint with _ | e
  · exact hk
  · rfl

theorem intervalEntry_recovers (iv : Interval) (body : Kont) : (intervalEntry iv body).recovers = false := by
  cases iv <;> rfl

theorem compile_recovers (t : TypeExpr) (r : Rho) {k : Kont} (hk : k.recovers = false) :
    (compile t r k).recovers = false := by
  cases t with
  | union variants =>
    rcases variants with _ | ⟨name, body, c, iv, _ | _⟩
    · exact hk
    · rfl
    · rfl
  | optional element constraint iv =>
    rcases constraint with _ | e <;> rfl
  | primitive kind constraint iv =>
    show (compilePrimitive kind constraint iv r k).recovers = false
    unfold compilePrimitive
    dsimp only
    split <;> rfl
  | _ => rfl

theorem compileFields_recovers (fs : Fields) (r : Rho) {tail : Kont} (hk : tail.recovers = false) :
    (compileFields fs r tail).recovers = false := by
  match fs with
  | .nil => exact hk
  | .cons name body c iv scopesRest rest =>
    unfold compileFields
    dsimp only
    split
    · exact compile_recovers _ _ rfl
    · split
      · exact intervalEntry_recovers _ _
      · exact compile_recovers _ _ (compileFields_recovers rest r hk)

theorem compileBitfield_recovers (container : PrimitiveInfo) (r : Rho) (k : Kont) (offset : Nat)
    (es : List BitfieldEntry) : (compileBitfield container r k offset es).recovers = false := by
  cases es <;> rfl

namespace LoopSite

theorem bodyHead_recovers (s : LoopSite) : s.bodyHead.recovers = false := by
  obtain ⟨name, element, spec, _ | iv, resync, r, k⟩ := s
  · exact compile_recovers _ _ rfl
  · exact intervalEntry_recovers _ _

theorem loopEntry_recovers (s : LoopSite) : s.loopEntry.recovers = false := by
  unfold loopEntry
  split
  · exact compile_recovers _ _ s.bodyHead_recovers
  · exact s.bodyHead_recovers

/-- The separator of an array, if it has one, before `head`. -/
def separated (spec : ArraySpec) (r : Rho) (head : Kont) : Kont :=
  match spec with
  | .sepTerm (.type t) _ => compile t (inField "_" r) head
  | _ => head

theorem loopEntry_eq (s : LoopSite) : s.loopEntry = separated s.spec s.elemRho s.bodyHead := by
  obtain ⟨name, element, _ | ⟨_ | t, term⟩, iv, resync, r, k⟩ := s <;> rfl

end LoopSite

/-! ## What the compiler drops -/

section

variable (p : Program)

@[simp] theorem droppedWhere_false (c : Option Expr) (s : St) : droppedWhere p false c s = .ok s := rfl

@[simp] theorem droppedWindow_false (iv : Option Interval) (body : Parser) : droppedWindow p false iv body = body := rfl

@[simp] theorem placed_false (t : TypeExpr) (body : Parser) : placed p false t body = body := rfl

theorem Outcome.bind_ok {α : Type} (o : Outcome α) : (o >>= .ok) = o := by
  rcases o with _ | _ | _ | _ <;> rfl

theorem Outcome.orElse_fail {α : Type} (o : Outcome α) : o.orElse .fail = o := by
  rcases o with _ | _ | _ | _ <;> rfl

/-- `armBody`, as it is compiled. -/
theorem armParser_false (call : String → Parser) (body : TypeExpr) (parsed : Parser) (s : St) :
    armParser p false call body parsed s = match body with
      | .ruleRef name _ _ => call name s
      | _ => parsed s := by
  cases body with
  | ruleRef name constraint interval => exact Outcome.bind_ok _
  | _ => rfl

theorem fieldWindows_false (interval : Option Interval) (t : TypeExpr) (body : Parser) :
    fieldWindows p false interval t body = inWindow p (fieldInterval interval t) body := by
  cases interval <;> rfl

end

/-! ## Around a construct -/

section

variable {p : Program} {L n : Nat} {m x : Machine} {k body : Kont} {r : Rho}

theorem enter_sim {iv : Interval} (hg : Good p m) (hctl : m.control = .run (intervalEntry iv body)) :
    Sim p L 1 m body (St.enter p iv m.state) := by
  cases iv with
  | startEnd start stop => exact (seek_sim hg hctl).bind hg fun m' hctl' _ hg' => pushWindow_sim hg' hctl'
  | length len => exact pushWindow_sim hg hctl

/-- **A construct in its window**, if it has one. -/
theorem inWindow_sim {iv : Option Interval} {P : Parser} (compiled : Kont → Kont) (hk : k.recovers = false) (hg : Good p m)
    (hctl : m.control = .run (match iv with
      | some iv => intervalEntry iv (compiled (.popInterval false k))
      | none => compiled k))
    (hin : ∀ x k', k'.recovers = false → Good p x → x.control = .run (compiled k') → Sim p L 0 x k' (P x.state)) :
    Sim p L 0 m k (inWindow p iv P m.state) := by
  rcases iv with _ | iv
  · exact hin m k hk hg hctl
  · have hentered := enter_sim (L := L) hg hctl
    have hbody := hentered.bind hg fun m' hctl' _ hg' => hin m' (.popInterval false k) rfl hg' hctl'
    have hpopped := Sim.popped (d := 0) hbody hg
    rw [Outcome.bind_assoc] at hpopped
    exact hpopped

/-! ## Scopes of failure -/

/-- The failure handler around a construct, if there is one, recovers. -/
def Backs (r : Rho) : Prop := ∀ t, findBacktrackTarget r = some t → t.recovers = true

theorem Backs.root : Backs .root := fun _ h => nomatch h

theorem Backs.inField (h : Backs r) (name : String) : Backs (inField name r) := h

theorem Backs.inAlt {t : Kont} (ht : t.recovers = true) : Backs (.inAlt t r) := fun _ h => by
  cases h
  exact ht

theorem Backs.inOptional {t : Kont} (ht : t.recovers = true) : Backs (.inOptional t r) := fun _ h => by
  cases h
  exact ht

theorem Backs.elemRho {s : LoopSite} (h : Backs s.rho) : Backs s.elemRho := by
  unfold LoopSite.elemRho LoopSite.resyncTarget
  split
  · intro t ht
    cases ht
    rfl
  · exact h

/-- A field's own name; none when it is empty. -/
theorem internFieldOrAnon_inField (name : String) (r : Rho) : internFieldOrAnon (inField name r) = name := by
  unfold inField nullable
  split
  · rename_i h
    exact (String.isEmpty_iff.1 h).symm
  · rfl

/-! ## Bit fields -/

theorem bitfield_sim {container : PrimitiveInfo} {offset : Nat} {es : List BitfieldEntry} (hg : Good p m) (hr : Backs r)
    (hctl : m.control = .run (compileBitfield container r k offset es)) :
    Sim p L 0 m k (parseBits p container offset es m.state) := by
  induction es generalizing m offset with
  | nil =>
    have hstep : m.step p = { m with pos := sizeAdd m.pos container.byteCount }.go k := by
      simp only [Machine.step, hctl, compileBitfield, Machine.exec]
    exact After.of_step hstep (.reach hg (.of_eq rfl rfl rfl) rfl)
  | cons e es ih =>
    unfold parseBits
    have hbits := bits_sim (L := L) hg hctl
    have hall := hbits.bind (f := fun s => St.check p e.constraint s >>= parseBits p container (offset + e.width) es) hg
      fun m₁ hctl₁ _ hg₁ => (check_sim hg₁ hr hctl₁).bind hg₁ fun m₂ hctl₂ _ hg₂ => ih hg₂ hctl₂
    rw [Outcome.bind_assoc] at hall
    exact hall

/-! ## Switches -/

theorem toInt_add_one {a b : Int64} (h : a.toInt < b.toInt) : (a + 1).toInt = a.toInt + 1 := by
  have hmax := b.toInt_lt
  have hmin := a.le_toInt
  rw [Int64.toInt_add, show (1 : Int64).toInt = 1 by decide]
  exact Int.bmod_eq_of_le (by omega) (by omega)

theorem selectCase_rangeTargets {v : Value} {ordinal : Nat} {target : Kont} {rest : Targets} {c : Nat} {lo hi : Int64}
    (hc : c = (hi.toInt - lo.toInt + 1).toNat) :
    Machine.selectCase v (rangeTargets ordinal target rest c lo) =
      if caseMatches v (.range lo hi) then some (ordinal, target) else Machine.selectCase v rest := by
  induction c generalizing lo with
  | zero =>
    have hempty : caseMatches v (.range lo hi) = false := by
      cases v with
      | int i =>
        show decide (lo.toInt ≤ i.toInt ∧ i.toInt ≤ hi.toInt) = false
        rw [decide_eq_false_iff_not]
        omega
      | _ => rfl
    rw [hempty]
    rfl
  | succ c ih =>
    show (if Machine.matchesCase v (some (.int lo)) then some (ordinal, target) else
      Machine.selectCase v (rangeTargets ordinal target rest c (lo + 1))) = _
    cases v with
    | int i =>
      -- the discriminants after `lo` do not wrap around
      have hlater : Machine.selectCase (.int i) (rangeTargets ordinal target rest c (lo + 1)) =
          if decide (lo.toInt < i.toInt ∧ i.toInt ≤ hi.toInt) then some (ordinal, target)
          else Machine.selectCase (.int i) rest := by
        rcases c with _ | c
        · have hnone : ¬ (lo.toInt < i.toInt ∧ i.toInt ≤ hi.toInt) := by omega
          simp only [hnone, decide_false, Bool.false_eq_true, if_false]
          rfl
        · have hnext : (lo + 1).toInt = lo.toInt + 1 := toInt_add_one (b := hi) (by omega)
          rw [ih (by omega)]
          unfold caseMatches
          simp only [hnext]
          rfl
      rw [hlater]
      show (if i == lo then _ else _) = if decide (lo.toInt ≤ i.toInt ∧ i.toInt ≤ hi.toInt) then _ else _
      by_cases hi' : i = lo
      · subst hi'
        have hin : i.toInt ≤ i.toInt ∧ i.toInt ≤ hi.toInt := by omega
        simp [hin]
      · have hne : i.toInt ≠ lo.toInt := fun h => hi' (Int64.toInt_inj.1 h)
        have hiff : (lo.toInt < i.toInt ∧ i.toInt ≤ hi.toInt) ↔ (lo.toInt ≤ i.toInt ∧ i.toInt ≤ hi.toInt) := by omega
        simp [hi', hiff]
    | _ =>
      -- only a number is in a range
      rcases c with _ | c
      · rfl
      · have hnext : (lo + 1).toInt = lo.toInt + 1 := toInt_add_one (b := hi) (by omega)
        exact ih (by omega)

theorem selectCase_caseTargets {v : Value} {ordinal : Nat} {target : Kont} {rest : Targets} (value : CaseValue) :
    Machine.selectCase v (caseTargets value ordinal target rest) =
      if caseMatches v value then some (ordinal, target) else Machine.selectCase v rest := by
  unfold caseTargets
  split
  · exact selectCase_rangeTargets rfl
  · rename_i hrange
    cases value with
    | range lo hi => exact absurd rfl (hrange lo hi)
    | _ => rfl

end

/-! ## Productions -/

section

variable {p : Program} {n : Nat} {m x : Machine} {k : Kont} {r : Rho} {call : String → Parser}

theorem commitChoice_pops (k : Kont) : PopsTo p (.commitChoice k) k := fun _ => rfl

/-- What is known of the rules a construct refers to. -/
def CallsSim (p : Program) (n : Nat) (call : String → Parser) : Prop :=
  ∀ {m : Machine} {k : Kont} {name : String} {t : Option Kont}, Good p m → m.control = .run (.invokeRule name t k) →
    Sim p n 0 m k (call name m.state)

/-- A construct in the capture scope that the turn opens. -/
theorem opened_sim {b : Builder} {entry : Kont} {name : String} {P : Parser} (hg : Good p m)
    (hstep : m.step p = { m with builder := b }.go entry)
    (hs : scopesOf b = ⟨{ Leaf.carrier .struct m.pos m.pos none with name := some name }, []⟩ :: scopesOf m.builder)
    (h : ∀ x, Good p x → x.control = .run entry → Sim p n 0 x (.endStruct k) (P x.state)) :
    Sim p n 0 m k (do return (← P (m.state.openScope .struct name)).closeScope) := by
  have hgx : Good p ({ m with builder := b }.go entry) := hstep ▸ hg.step
  have hstate : ({ m with builder := b }.go entry).state = m.state.openScope .struct name := by
    show ({ m.state with scopes := scopesOf b } : St) = _
    rw [hs]
    rfl
  rw [← hstate]
  exact .scoped hg hstep rfl rfl hs (h _ hgx rfl)

theorem struct_sim {entry : Kont} {name : String} {P : Parser} (hg : Good p m)
    (hctl : m.control = .run (.beginStruct name entry))
    (h : ∀ x, Good p x → x.control = .run entry → Sim p n 0 x (.endStruct k) (P x.state)) :
    Sim p n 0 m k (do return (← P (m.state.openScope .struct name)).closeScope) :=
  opened_sim hg (by simp only [Machine.step, hctl, Machine.exec]) (scopesOf_beginStruct ..) h

theorem parsePrimitive_sim {kind : PrimitiveKind} {constraint : Option Expr} {iv : Option Interval} (hg : Good p m)
    (hr : Backs r) (hctl : m.control = .run (compilePrimitive kind constraint iv r k)) :
    Sim p n 0 m k (parsePrimitive p kind constraint iv (internFieldOrAnon r) m.state) := by
  have hdone (o : Outcome Leaf)
      (h : Sim p n 0 m (wrapWhere constraint r k) (o >>= fun l => .ok (m.state.take (internFieldOrAnon r) l))) :
      Sim p n 0 m k (o >>= fun l => St.check p constraint (m.state.take (internFieldOrAnon r) l)) := by
    have hall := h.bind hg fun y hctly _ hgy => check_sim hgy hr hctly
    rw [Outcome.bind_assoc] at hall
    exact hall
  unfold compilePrimitive at hctl
  unfold parsePrimitive
  by_cases hkind : kind = .bytes ∨ kind = .string
  · simp only [if_pos hkind] at hctl ⊢
    exact hdone _ (bytes_sim hg hctl)
  · simp only [if_neg hkind] at hctl ⊢
    exact hdone _ (primitive_sim hg hctl)

theorem switch_step {discriminator : Expr} {cases : Cases} {default : SwitchDefault}
    (hctl : m.control = .run (compile (.switch discriminator cases default) r k)) : ∃ reject, m.step p =
      m.switchDispatch p discriminator (compileCases cases 0 r k) (compileDefault default r k) reject := by
  have hexec : m.step p = m.exec p (compile (.switch discriminator cases default) r k) := by
    simp only [Machine.step, hctl]
  rw [hexec]
  exact ⟨_, rfl⟩

/-- An element in its interval, up to `ArrayNext`. -/
theorem head_sim {site : LoopSite} {name : String} {element : TypeExpr} {spec : ArraySpec} {iv : Option Interval}
    {resync : Bool} {P : Parser} (hsite : site = .mk name element spec iv resync r k)
    (helem : ∀ x k', k'.recovers = false → Good p x → x.control = .run (compile element site.elemRho k') →
      Sim p n 0 x k' (P x.state))
    (hg : Good p x) (hctl : x.control = .run site.bodyHead) : Sim p n 0 x (.arrayNext site) (inWindow p iv P x.state) := by
  refine inWindow_sim (compile element site.elemRho) rfl hg ?_ helem
  rw [hsite] at hctl ⊢
  cases iv <;> exact hctl

/-- A construct in the scope of its variant. -/
theorem arm_sim {body : TypeExpr} {vname : String} {tag : Nat} {P : Parser} (hcall : CallsSim p n call) (hg : Good p m)
    (hctl : m.control = .run (.beginVariant vname tag (armBody body r (.endStruct k) (compile body r (.endStruct k)))))
    (hbody : ∀ x, Good p x → x.control = .run (compile body r (.endStruct k)) → Sim p n 0 x (.endStruct k) (P x.state)) :
    Sim p n 0 m k (do return (← armParser p false call body P (m.state.openScope .struct vname)).closeScope) := by
  have hstep : m.step p = { m with builder := m.builder.beginVariant (some vname) m.pos tag }.go
      (armBody body r (.endStruct k) (compile body r (.endStruct k))) := by simp only [Machine.step, hctl, Machine.exec]
  refine opened_sim hg hstep (scopesOf_beginVariant ..) fun x hgx hctlx => ?_
  rw [armParser_false]
  cases body with
  | ruleRef name constraint interval => exact hcall hgx hctlx
  | _ => exact hbody x hgx hctlx

end

/-! ## The productions -/

section

variable {p : Program} {n : Nat} {call : String → Parser}

mutual

/-- **A construct.** -/
theorem compile_sim (hcall : CallsSim p n call) (t : TypeExpr) {m : Machine} {k : Kont} {r : Rho} (hg : Good p m) (hr : Backs r)
    (hk : k.recovers = false) (hctl : m.control = .run (compile t r k)) :
    Sim p n 0 m k (parse p false n call t (internFieldOrAnon r) m.state) := by
  match t with
  | .struct fields constraint =>
    obtain ⟨P, hP⟩ : ∃ P : Parser, P = fun s => parseFields p false n call fields s >>= fun s =>
      (if fields.hasRest then St.popWindow p true s else .ok s) >>= St.check p constraint := ⟨_, rfl⟩
    have hval : parse p false n call (.struct fields constraint) (internFieldOrAnon r) m.state =
        (do return (← P (m.state.openScope .struct (internFieldOrAnon r))).closeScope) := by
      simp only [parse, hP, Outcome.bind_assoc]
      cases fields.hasRest <;> rfl
    rw [hval]
    refine struct_sim hg hctl fun x hgx hctlx => ?_
    have hchecked : (wrapWhere constraint r (.endStruct k)).recovers = false := wrapWhere_recovers rfl
    rw [hP]
    by_cases hrest : fields.hasRest = true
    · simp only [hrest, if_true] at hctlx ⊢
      have hfields := fields_sim hcall fields hgx hr rfl hctlx
      rw [if_pos hrest] at hfields
      have hpopped := Sim.popped (d := 0) hfields hgx
      have hall := hpopped.bind hgx fun y hctly _ hgy => check_sim hgy hr hctly
      rw [Outcome.bind_assoc] at hall
      exact hall
    · simp only [hrest, Bool.false_eq_true, if_false] at hctlx ⊢
      have hfields := fields_sim hcall fields hgx hr hchecked hctlx
      exact (hfields.weaken (Nat.zero_le _)).bind hgx fun y hctly _ hgy => check_sim hgy hr hctly
  | .union .nil => exact .here hctl
  | .union (.cons vname body constraint iv .nil) =>
    have harm := arm_sim (P := parse p false n call body (internFieldOrAnon r)) hcall hg hctl fun x hgx hctlx =>
      compile_sim hcall body hgx hr rfl hctlx
    have hval : parse p false n call (.union (.cons vname body constraint iv .nil)) (internFieldOrAnon r) m.state =
        _ := Outcome.orElse_fail _
    rw [hval]
    exact harm
  | .union (.cons vname body constraint iv (.cons vname' body' constraint' iv' rest)) =>
    obtain ⟨arms, harms⟩ : ∃ arms, arms = compileArms (.cons vname body constraint iv (.cons vname' body' constraint' iv' rest))
      0 r (.commitChoice k) := ⟨_, rfl⟩
    have hstep : m.step p = (m.pushFrame (.savepoint (m.savepoint (some arms.2)))).go arms.1 := by
      simp only [Machine.step, hctl, compile, Machine.exec, harms, compileArms]
    have hx : Trying p m (m.step p) arms.2 := .begin hg hstep
    rw [harms] at hx hstep
    exact arms_sim hcall (.cons vname body constraint iv (.cons vname' body' constraint' iv' rest)) (by simp) hx hr hk
      (by rw [hstep]; rfl) rfl
  | .array element spec constraint iv elementInterval resync =>
    obtain ⟨site, hsite⟩ : ∃ site, site = LoopSite.mk (internFieldOrAnon r) element spec elementInterval resync r
      (wrapWhere constraint r k) := ⟨_, rfl⟩
    have hctl' : m.control = .run (.beginArray site) := by rw [hsite]; exact hctl
    have helem : Backs site.elemRho := by
      rw [hsite]
      exact Backs.elemRho (s := .mk _ _ _ _ _ r _) hr
    have hhead (x : Machine) (hgx : Good p x) (hctlx : x.control = .run site.bodyHead) :
        Sim p n 0 x (.arrayNext site) (inWindow p elementInterval (parse p false n call element "") x.state) :=
      head_sim hsite (fun y k' hk' hgy hctly => compile_sim hcall element hgy helem hk' hctly) hgx hctlx
    have hlater (x : Machine) (hgx : Good p x) (hctlx : x.control = .run site.loopEntry) :
        Sim p n 0 x (.arrayNext site) (parseSpec p false n call spec
          (inWindow p elementInterval (parse p false n call element "")) x.state) := by
      refine spec_sim hcall spec hgx helem site.bodyHead_recovers hhead ?_
      rw [hctlx, LoopSite.loopEntry_eq]
      rw [show site.spec = spec by rw [hsite]; rfl]
    have hloop := array_sim hg hctl' site.loopEntry_recovers hhead hlater
    rw [← arrayMode_spec] at hloop
    have hall := hloop.bind (f := St.check p constraint) hg fun y hctly _ hgy =>
      check_sim (r := r) hgy hr (by rw [hctly, hsite]; rfl)
    rw [hsite] at hall
    exact hall
  | .optional element (some cond) iv =>
    have hstep : m.step p = m.evalConstraint p cond k (compile element r k) := by
      simp only [Machine.step, hctl, compile, Machine.exec]
    refine After.of_step hstep (.consumeBool hg (.refl hg) fun v b _ _ => ?_)
    rcases b with _ | _
    · exact .reach hg (.of_eq rfl rfl rfl) rfl
    · have hbody : After p n (0 + 0) m k ({ m with result := v }.go (compile element r k))
          (parse p false n call element (internFieldOrAnon r) m.state) :=
        .go hg (.of_eq rfl rfl rfl) fun hgx => compile_sim hcall element (m := _) hgx hr hk rfl
      exact hbody
  | .optional element none iv =>
    refine optional_sim (P := parse p false n call element (internFieldOrAnon r)) hg hk hctl fun x hctlx hgx => ?_
    exact compile_sim hcall element (r := .inOptional (.onFail (some k) none true) r) hgx (.inOptional rfl) rfl hctlx
  | .switch discriminator cases default =>
    obtain ⟨reject, hstep⟩ := switch_step (p := p) hctl
    refine After.of_step hstep (.consume hg (.refl hg) fun v _ => ?_)
    rcases v with _ | v
    · exact .fail_result hg _
    have hentered {P : Parser} (ordinal : Nat) (target : Kont)
        (h : ∀ x, Good p x → x.control = .run target → Sim p n 0 x k (P x.state)) :
        After p n (0 + 0) m k ({ m with
          result := some v, builder := m.builder.setPendingVariantTag ordinal }.go target) (P m.state) :=
      .go hg (.of_eq rfl rfl rfl) fun hgx => h _ hgx rfl
    have hcases := cases_sim hcall cases (parseDefault p false n call default (internFieldOrAnon r)) (v := v) (i := 0) hr hk
    have hdefault := default_sim hcall default hr hk
    dsimp only
    rcases hsel : Machine.selectCase v (compileCases cases 0 r k) with _ | ⟨ordinal, target⟩
    · rw [hsel] at hcases
      dsimp only at hcases ⊢
      rw [hcases]
      rcases hd : compileDefault default r k with _ | target
      · rw [hd] at hdefault
        rw [hdefault]
        exact .fail_result hg _
      · rw [hd] at hdefault
        exact hentered _ _ hdefault
    · rw [hsel] at hcases
      exact hentered _ _ hcases
  | .compute e => exact compute_sim hg hctl
  | .primitive kind constraint iv => exact parsePrimitive_sim hg hr hctl
  | .ruleRef name constraint iv => exact struct_sim hg hctl fun x hgx hctlx => hcall hgx hctlx
  | .external funcName constraint iv => exact external_sim hg hctl
  | .bitfield container first rest => exact struct_sim hg hctl fun x hgx hctlx => bitfield_sim hgx hr hctlx
  | .endianSwitch e => exact setEndian_sim hg hctl

theorem fields_sim (hcall : CallsSim p n call) (fs : Fields) {m : Machine} {tail : Kont} {r : Rho} (hg : Good p m) (hr : Backs r)
    (hk : tail.recovers = false) (hctl : m.control = .run (compileFields fs r tail)) :
    Sim p n (if fs.hasRest then 1 else 0) m tail (parseFields p false n call fs m.state) := by
  match fs with
  | .nil => exact .here hctl
  | .cons name body constraint iv scopesRest rest =>
    have hname := internFieldOrAnon_inField name r
    have hchain := compileFields_recovers rest r hk
    rcases scopesRest with _ | _
    · have hone : Sim p n 0 m (compileFields rest r tail)
          (inWindow p (fieldInterval iv body) (parse p false n call body name) m.state) := by
        refine inWindow_sim (compile body (inField name r)) hchain hg ?_ fun x k' hk' hgx hctlx => ?_
        · exact hctl
        · have h := compile_sim hcall body hgx (hr.inField name) hk' hctlx
          rwa [hname] at h
      have hall := hone.bind hg fun y hctly _ hgy => fields_sim hcall rest hgy hr hk hctly
      rw [Nat.zero_add] at hall
      simp only [parseFields, fieldWindows_false]
      exact hall
    · have hone := compile_sim hcall body hg (hr.inField name) rfl hctl
      rw [hname] at hone
      have hall := hone.bind (f := fun s => St.pushWindow p true (.ref (.simple name none)) s >>=
        parseFields p false n call rest) hg fun y hctly _ hgy =>
          (pushWindow_sim hgy hctly).bind hgy fun z hctlz _ hgz => fields_sim hcall rest hgz hr hk hctlz
      simp only [parseFields, droppedWindow_false, placed_false, droppedWhere_false, Outcome.ok_bind, if_true]
      exact hall.weaken (by simp [Fields.hasRest])

/-- **A choice**, at the arm that `x` is about to try. -/
theorem arms_sim (hcall : CallsSim p n call) (vs : Variants) {m x : Machine} {i : Nat} {k : Kont} {r : Rho} {name : String} (hne : vs ≠ .nil)
    (hx : Trying p m x (compileArms vs i r (.commitChoice k)).2) (hr : Backs r) (hk : k.recovers = false)
    (hctl : x.control = .run (compileArms vs i r (.commitChoice k)).1) (hname : internFieldOrAnon r = name) :
    Sim p n 0 m k (parseArms p false n call vs name m.state) := by
  match vs with
  | .nil => exact absurd rfl hne
  | .cons vname body constraint iv .nil =>
    refine hx.attempt (commitChoice_pops k) rfl ?_ fun w z hw hgw hz => hz.gives_up hx hw
    rw [← hx.state, ← hname]
    exact arm_sim hcall hx.good hctl fun y hgy hctly => compile_sim hcall body hgy hr rfl hctly
  | .cons vname body constraint iv (.cons vname' body' constraint' iv' rest) =>
    refine hx.attempt (commitChoice_pops k) rfl ?_ fun w z hw hgw hz => ?_
    · rw [← hx.state, ← hname]
      refine arm_sim hcall hx.good hctl fun y hgy hctly => ?_
      exact compile_sim hcall body (r := .inAlt (compileArms (.cons vname body constraint iv
        (.cons vname' body' constraint' iv' rest)) i r (.commitChoice k)).2 r) hgy (.inAlt rfl) rfl hctly
    · obtain ⟨s, hs, hctls⟩ := hz.next hx (by cases rest <;> rfl) hw hgw
      exact arms_sim hcall (.cons vname' body' constraint' iv' rest) (by simp) hs hr hk hctls hname

theorem cases_sim (hcall : CallsSim p n call) (cs : Cases) (dflt : Parser) {v : Value} {i : Nat} {k : Kont} {r : Rho} (hr : Backs r)
    (hk : k.recovers = false) :
    match Machine.selectCase v (compileCases cs i r k) with
    | some (_, target) => ∀ x, Good p x → x.control = .run target →
        Sim p n 0 x k (parseCases p false n call cs (internFieldOrAnon r) v dflt x.state)
    | none => parseCases p false n call cs (internFieldOrAnon r) v dflt = dflt := by
  match cs with
  | .nil => rfl
  | .cons value target iv rest =>
    have hselect : Machine.selectCase v (compileCases (.cons value target iv rest) i r k) =
        if caseMatches v value then some (i, compile target r k)
        else Machine.selectCase v (compileCases rest (i + 1) r k) := selectCase_caseTargets value
    have hrest := cases_sim hcall rest dflt (v := v) (i := i + 1) hr hk
    rw [hselect]
    by_cases hv : caseMatches v value = true
    · simp only [if_pos hv, parseCases]
      exact fun x hgx hctlx => compile_sim hcall target hgx hr hk hctlx
    · have hskip : parseCases p false n call (.cons value target iv rest) (internFieldOrAnon r) v dflt =
          parseCases p false n call rest (internFieldOrAnon r) v dflt := by
        funext s
        simp only [parseCases, if_neg hv]
      rw [if_neg hv, hskip]
      exact hrest

theorem default_sim (hcall : CallsSim p n call) (d : SwitchDefault) {k : Kont} {r : Rho} (hr : Backs r) (hk : k.recovers = false) :
    match compileDefault d r k with
    | some target => ∀ x, Good p x → x.control = .run target →
        Sim p n 0 x k (parseDefault p false n call d (internFieldOrAnon r) x.state)
    | none => parseDefault p false n call d (internFieldOrAnon r) = fun _ => .fail := by
  match d with
  | .absent => rfl
  | .reject => rfl
  | .target t iv => exact fun x hgx hctlx => compile_sim hcall t hgx hr hk hctlx

theorem spec_sim (hcall : CallsSim p n call) (spec : ArraySpec) {m : Machine} {r : Rho} {head : Kont} {next : Kont} {body : Parser} (hg : Good p m)
    (hr : Backs r) (hhead : head.recovers = false)
    (hbody : ∀ x, Good p x → x.control = .run head → Sim p n 0 x next (body x.state))
    (hctl : m.control = .run (LoopSite.separated spec r head)) :
    Sim p n 0 m next (parseSpec p false n call spec body m.state) := by
  match spec with
  | .fixedCount e => exact hbody m hg hctl
  | .sepTerm .none term => exact hbody m hg hctl
  | .sepTerm (.type t) term =>
    have hsep := compile_sim hcall t hg (hr.inField "_") hhead hctl
    rw [internFieldOrAnon_inField] at hsep
    exact hsep.bind hg fun y hctly _ hgy => hbody y hgy hctly

end

/-! ## Rules -/

variable {m : Machine} {k : Kont}

/-- A rule's body, up to its `ReturnRule`. -/
theorem body_sim (hcall : CallsSim p n call) (t : TypeExpr) (hg : Good p m) (hctl : m.control = .run (compileRule t)) :
    Sim p n 0 m ruleExit (parseBody p false n call t m.state) := by
  cases t with
  | struct fields constraint =>
    have hchecked : (wrapWhere constraint .root ruleExit).recovers = false := wrapWhere_recovers rfl
    unfold compileRule at hctl
    unfold parseBody
    by_cases hrest : fields.hasRest = true
    · simp only [hrest, if_true] at hctl ⊢
      have hfields := fields_sim hcall fields hg .root rfl hctl
      rw [if_pos hrest] at hfields
      have hpopped := Sim.popped (d := 0) hfields hg
      have hall := hpopped.bind hg fun y hctly _ hgy => check_sim hgy Backs.root hctly
      rw [Outcome.bind_assoc] at hall
      exact hall
    · simp only [hrest, Bool.false_eq_true, if_false] at hctl ⊢
      have hfields := fields_sim hcall fields hg .root hchecked hctl
      exact (hfields.weaken (Nat.zero_le _)).bind hg fun y hctly _ hgy => check_sim hgy Backs.root hctly
  | bitfield container first rest => exact bitfield_sim hg .root hctl
  | _ => exact compile_sim hcall _ hg .root rfl hctl

/-- **A rule that is called.** -/
theorem rule_sim : CallsSim p n (parseRule p false n) := by
  induction n with
  | zero => exact fun _ hctl => .timeout ⟨Nat.le_refl _, _, hctl⟩
  | succ n ih =>
    intro m k name t hg hctl
    have hstep : m.step p = m.invokeRule p name t k := by simp only [Machine.step, hctl, Machine.exec]
    unfold Machine.invokeRule Program.entry at hstep
    unfold parseRule
    rcases hfind : p.grammar.rules.find? fun r => r.name == name with _ | rule
    · simp only [hfind] at hstep ⊢
      exact .missing (.refl (Nat.le_refl _)) (by rw [hstep]; rfl)
    · simp only [hfind] at hstep ⊢
      have hgx := hg.step
      rw [hstep] at hgx
      exact Sim.called hstep rfl rfl rfl (body_sim ih rule.body hgx rfl)

/-! ## Whole runs -/

theorem Good.run (h : Good p m) (i : Nat) : Good p (m.run p i) := by
  induction i generalizing m with
  | zero => exact h
  | succ i ih => exact ih h.step

/-- A parse that is over stays so. -/
theorem Machine.run_done {i j : Nat} (h : (m.run p i).control = .done) (hij : i ≤ j) : (m.run p j).control = .done := by
  induction i generalizing m j with
  | zero =>
    have hstep : m.step p = m := by
      have hm : m.control = .done := h
      simp only [Machine.step, hm]
    induction j with
    | zero => exact h
    | succ j ih =>
      show ((m.step p).run p j).control = .done
      rw [hstep]
      exact ih (Nat.zero_le _)
  | succ i ih =>
    obtain ⟨j, rfl⟩ : ∃ j', j = j' + 1 := ⟨j - 1, by omega⟩
    exact ih (m := m.step p) h (by omega)

theorem Good.start {name : String} {entry : Kont} (he : p.entry name = some entry)
    (hclean : ∀ i, ((p.start entry).run p i).Clean p) : Good p (p.start entry) :=
  ⟨.start False.elim he, hclean⟩

/-- What is reached of an array was compiled where failures have their handlers. -/
theorem Good.backs {site : LoopSite} (hg : Good p m) (hctl : m.control = .run (.beginArray site)) :
    Backs site.rho := by
  rcases hg.sound.standing hctl rfl with ⟨Γ, n, ht, hf⟩ | ⟨Γ, n, c, hst, -⟩
  · cases ht with
    | beginArray hp =>
      cases hp with
      | mk hr =>
        intro t ht
        obtain ⟨Δ, sc, haims, -⟩ := hf.aims_backtrackTarget (hr.symm.trans ht)
        exact haims.recovers
  · cases hst

/-- An element of an array, in its interval. -/
def LoopSite.elementParser (p : Program) (n : Nat) (call : String → Parser) : LoopSite → Parser
  | .mk _ element _ iv _ _ _ => inWindow p iv (parse p false n call element "")

/-- **An array that a run reaches.** -/
theorem reached_sim {site : LoopSite} (hcall : CallsSim p n call) (hg : Good p m)
    (hctl : m.control = .run (.beginArray site)) :
    Sim p n 0 m site.next (parseArray p n site.arrayName site.mode site.resyncs (site.elementParser p n call)
      (parseSpec p false n call site.spec (site.elementParser p n call)) m.state) := by
  have helem : Backs site.elemRho := Backs.elemRho (hg.backs hctl)
  have hhead (x : Machine) (hgx : Good p x) (hctlx : x.control = .run site.bodyHead) :
      Sim p n 0 x (.arrayNext site) (site.elementParser p n call x.state) := by
    obtain ⟨name, element, spec, iv, resync, r, k⟩ := site
    exact head_sim rfl (fun y k' hk' hgy hctly => compile_sim hcall element hgy helem hk' hctly) hgx hctlx
  have hlater (x : Machine) (hgx : Good p x) (hctlx : x.control = .run site.loopEntry) :
      Sim p n 0 x (.arrayNext site) (parseSpec p false n call site.spec (site.elementParser p n call) x.state) :=
    spec_sim hcall site.spec hgx helem site.bodyHead_recovers hhead (by rw [hctlx, LoopSite.loopEntry_eq])
  exact array_sim hg hctl site.loopEntry_recovers hhead hlater

end

end Bbq.Cek
