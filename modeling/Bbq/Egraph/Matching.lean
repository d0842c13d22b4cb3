import Bbq.Egraph.Template

/-!
# What a quiet round has seen

A round is followed from a graph `s₀` on. As long as finds are all that is done the round is `Still`. Once
a change is reported, or a class is on the worklist, or a node was added without either (`Loud`), it stays so.

* `Keeps`: what every part of the matcher does from any state.
* `Shows`: from a still state a part is loud afterwards, or it is still and something holds of `s₀`.
* `matchPat_shows`, `fire_shows`, **`rewriteRound_shows`**: a round that is not loud has tried every match.
-/

namespace Bbq.Egraph

variable {D : Type} {g : EGraph} {an : EgAnalysis D} {aux : String → View D → List (Option Nat) → Option Nat}

/-! ## Matches -/

/-- A live node of a class. -/
def NodeAt (g : EGraph) (c : Nat) (n : EgNode) : Prop :=
  egValid g c ∧ ∃ i : Nat, g.nodes[i]? = some n ∧ n.live = true ∧ n.cls = root g.parent c

mutual

/-- The pattern matches at class `c` with the binders as in `σ`. -/
def Matches (g : EGraph) (σ : String → Nat) : RewritePat → Nat → Prop
  | .binder name, c => σ name = c
  | .node op ps, c => ∃ n, NodeAt g c n ∧ n.op = op ∧ MatchesAll g σ ps n.kids

def MatchesAll (g : EGraph) (σ : String → Nat) : List RewritePat → List Nat → Prop
  | [], [] => True
  | p :: ps, k :: ks => Matches g σ p (root g.parent k) ∧ MatchesAll g σ ps ks
  | _, _ => False

end

/-- The variables with those of `names` bound. -/
def extend (names : List String) (σ : String → Nat) (env : Env) : Env := fun name =>
  if name ∈ names then some (σ name) else env name

/-- Every instance of a rule stands in the class that its pattern matches. -/
def RuleDone (aux : String → View D → List (Option Nat) → Option Nat) (rule : RewriteRule D) (s : Analysed D) : Prop :=
  ∀ (c : Nat) (n : EgNode) (σ : String → Nat), root s.graph.parent c = c → NodeAt s.graph c n → n.op = rule.op →
    MatchesAll s.graph σ rule.children n.kids →
      rule.guard (view s) (extend (bindersAll rule.children) σ noEnv) c = true →
        ∃ id, stands aux s c n.data (extend (bindersAll rule.children) σ noEnv) rule.tmpl = some id ∧
          root s.graph.parent id = c

theorem MatchesAll.length {g : EGraph} {σ : String → Nat} {ps : List RewritePat} {ks : List Nat}
    (h : MatchesAll g σ ps ks) : ks.length = ps.length := by
  induction ps generalizing ks with
  | nil =>
    cases ks with
    | nil => rfl
    | cons k ks => exact h.elim
  | cons p ps ih =>
    cases ks with
    | nil => exact h.elim
    | cons k ks =>
      have hrest : MatchesAll g σ ps ks := h.2
      rw [List.length_cons, List.length_cons, ih hrest]

theorem nodeAt_same {g g' : EGraph} (hs : Same g g') {c : Nat} {n : EgNode} : NodeAt g' c n ↔ NodeAt g c n := by
  unfold NodeAt egValid
  rw [hs.halved.length, hs.nodes, hs.halved.root]

mutual

theorem matches_same {g g' : EGraph} (hs : Same g g') (σ : String → Nat) : ∀ (p : RewritePat) (c : Nat),
    Matches g' σ p c ↔ Matches g σ p c
  | .binder name, c => by
    unfold Matches
    exact Iff.rfl
  | .node op ps, c => by
    unfold Matches
    exact exists_congr fun n => and_congr (nodeAt_same hs) (and_congr_right fun _ => matchesAll_same hs σ ps n.kids)

theorem matchesAll_same {g g' : EGraph} (hs : Same g g') (σ : String → Nat) : ∀ (ps : List RewritePat) (ks : List Nat),
    MatchesAll g' σ ps ks ↔ MatchesAll g σ ps ks
  | [], [] => by
    unfold MatchesAll
    exact Iff.rfl
  | [], _ :: _ => by
    unfold MatchesAll
    exact Iff.rfl
  | _ :: _, [] => by
    unfold MatchesAll
    exact Iff.rfl
  | p :: ps, k :: ks => by
    unfold MatchesAll
    rw [hs.halved.root]
    exact and_congr (matches_same hs σ p _) (matchesAll_same hs σ ps ks)

end

theorem extend_append (a b : List String) (σ : String → Nat) (env : Env) :
    extend (a ++ b) σ env = extend b σ (extend a σ env) := by
  funext name
  unfold extend
  by_cases ha : name ∈ a
  · by_cases hb : name ∈ b
    · rw [if_pos (List.mem_append_left _ ha), if_pos hb]
    · rw [if_pos (List.mem_append_left _ ha), if_neg hb, if_pos ha]
  · by_cases hb : name ∈ b
    · rw [if_pos (List.mem_append_right _ hb), if_pos hb]
    · have hab : name ∉ a ++ b := fun h => (List.mem_append.mp h).elim ha hb
      rw [if_neg hab, if_neg hb, if_neg ha]

theorem extend_singleton (name : String) (σ : String → Nat) (env : Env) :
    extend [name] σ env = Function.update env name (some (σ name)) := by
  funext x
  unfold extend
  by_cases hx : x = name
  · subst hx
    rw [if_pos (List.mem_singleton_self x), Function.update_self]
  · rw [if_neg (fun h => hx (List.mem_singleton.mp h)), Function.update_of_ne hx]

theorem extend_nil (σ : String → Nat) (env : Env) : extend [] σ env = env := by
  funext x
  unfold extend
  rw [if_neg List.not_mem_nil]

/-! ## Still and loud -/

/-- Finds are all that was done since `s₀`. -/
def Still (s₀ : Analysed D) (t : Turn D) : Prop := Alike s₀ t.state ∧ t.changed = false

/-- A change is reported, or there is something to repair, or there are nodes that nothing reports, which
counts where `tame` does not hold. -/
def Loud (s₀ : Analysed D) (tame : Prop) (t : Turn D) : Prop :=
  t.changed = true ∨ t.state.graph.worklist ≠ [] ∨ ¬tame ∧ s₀.graph.nodes.length < t.state.graph.nodes.length

/-- A part of the matcher works through calls and does not take a report back. -/
def Keeps (f : Turn D → Turn D) : Prop :=
  ∀ t, Whole t.state.graph → Onward t.state.graph (f t).state.graph ∧ (t.changed = true → (f t).changed = true)

def Shows (s₀ : Analysed D) (tame : Prop) (f : Turn D → Turn D) (Q : Prop) : Prop :=
  ∀ t, Whole t.state.graph → Still s₀ t → Loud s₀ tame (f t) ∨ Still s₀ (f t) ∧ Q

variable {s₀ : Analysed D} {tame : Prop}

theorem Shows.mono {f : Turn D → Turn D} {Q Q' : Prop} (h : Shows s₀ tame f Q) (hQ : Q → Q') : Shows s₀ tame f Q' :=
  fun t ht hstill => (h t ht hstill).imp_right fun h => ⟨h.1, hQ h.2⟩

theorem Loud.onward {t t' : Turn D} (h : Loud s₀ tame t) (ho : Onward t.state.graph t'.state.graph)
    (hchanged : t.changed = true → t'.changed = true) : Loud s₀ tame t' := by
  rcases h with h | h | ⟨htame, h⟩
  · exact .inl (hchanged h)
  · exact .inr (.inl fun hw => h (ho.grown hw).1)
  · exact .inr (.inr ⟨htame, lt_of_lt_of_le h ho.count⟩)

theorem foldl_keeps {α : Type} {body : Turn D → α → Turn D} (hbody : ∀ a, Keeps (body · a)) (l : List α) :
    Keeps (l.foldl body) := by
  intro t ht
  induction l generalizing t with
  | nil => exact ⟨.refl ht, id⟩
  | cons a l ih =>
    obtain ⟨hfirst, hchanged⟩ := hbody a t ht
    obtain ⟨hrest, hchanged'⟩ := ih _ hfirst.whole
    exact ⟨hfirst.trans hrest, fun h => hchanged' (hchanged h)⟩

theorem foldl_shows {α : Type} {body : Turn D → α → Turn D} (hbody : ∀ a, Keeps (body · a)) {Q : α → Prop}
    (l : List α) (hshows : ∀ a ∈ l, Shows s₀ tame (body · a) (Q a)) : Shows s₀ tame (l.foldl body) (∀ a ∈ l, Q a) := by
  intro t ht hstill
  induction l generalizing t with
  | nil => exact .inr ⟨hstill, fun a ha => nomatch ha⟩
  | cons a l ih =>
    have hfirst := (hbody a t ht).1
    obtain ⟨hrest, hchanged⟩ := foldl_keeps hbody l _ hfirst.whole
    rcases hshows a List.mem_cons_self t ht hstill with hloud | ⟨hstill', ha⟩
    · exact .inl (hloud.onward hrest hchanged)
    · rcases ih (fun b hb => hshows b (List.mem_cons_of_mem _ hb)) _ hfirst.whole hstill' with hloud | ⟨hstill'', hl⟩
      · exact .inl hloud
      · refine .inr ⟨hstill'', fun b hb => ?_⟩
        rcases List.mem_cons.mp hb with rfl | hb
        · exact ha
        · exact hl b hb

/-! ## The loops of a pattern -/

theorem matchTurn_keeps {op : Int} {arity : Nat} {cls : Option Nat} {body : Nat → List (Option Nat) → Turn D → Turn D}
    (hbody : ∀ n kids, Keeps (body n kids)) (n : Nat) : Keeps (matchTurn op arity cls body · n) := by
  intro t ht
  dsimp only [matchTurn]
  split
  · exact hbody n _ t ht
  · exact ⟨.refl ht, id⟩

theorem matchNode_keeps {op : Int} {arity : Nat} {cls : Option Nat} {body : Nat → List (Option Nat) → Turn D → Turn D}
    (hbody : ∀ n kids, Keeps (body n kids)) : Keeps (matchNode op arity cls body) := fun t ht =>
  foldl_keeps (matchTurn_keeps hbody) _ t ht

mutual

theorem matchPat_keeps : ∀ (p : RewritePat) (cls : Option Nat) (env : Env) {k : Env → Turn D → Turn D},
    (∀ env, Keeps (k env)) → Keeps (matchPat p cls env k)
  | .binder name, cls, env, k, hk => by
    unfold matchPat
    exact hk _
  | .node op ps, cls, env, k, hk => by
    unfold matchPat
    exact matchNode_keeps fun _ kids => matchPats_keeps ps kids env hk

theorem matchPats_keeps : ∀ (ps : List RewritePat) (kids : List (Option Nat)) (env : Env) {k : Env → Turn D → Turn D},
    (∀ env, Keeps (k env)) → Keeps (matchPats ps kids env k)
  | [], kids, env, k, hk => by
    unfold matchPats
    exact hk env
  | p :: ps, kids, env, k, hk => by
    unfold matchPats
    exact matchPat_keeps p _ env fun env => matchPats_keeps ps _ env hk

end

/-- The children of a node as the accessor gives them. -/
def kidIds (g : EGraph) (n : EgNode) : List (Option Nat) := n.kids.map fun k => some (root g.parent k)

theorem classLiveNode_iff (h₀ : Whole g) {c : Nat} (n : EgNode) :
    (∃ i < egClassNodes g (some c), classLiveNode g (some c) i = some n) ↔ NodeAt g c n := by
  unfold egClassNodes classLiveNode liveNodes NodeAt
  dsimp only
  constructor
  · rintro ⟨i, hi, hn⟩
    by_cases hc : egValid g c
    · rw [if_pos hc, Option.bind_eq_some_iff] at hn
      obtain ⟨idx, hidx, hn⟩ := hn
      obtain ⟨hlisted, hlive⟩ := List.mem_filter.mp (List.mem_of_getElem? hidx)
      rw [hn, Option.map_some, Option.getD_some] at hlive
      obtain ⟨n', hn', hcls⟩ := (h₀.stored.listed idx _).mp hlisted
      rw [hn] at hn'
      obtain rfl := Option.some.inj hn'
      exact ⟨hc, idx, hn, hlive, hcls⟩
    · rw [if_neg hc] at hn
      cases hn
  · rintro ⟨hc, idx, hn, hlive, hcls⟩
    rw [if_pos hc]
    have hmem : idx ∈ (nodeIdx g (root g.parent c)).filter fun i => (g.nodes[i]?.map EgNode.live).getD false := by
      refine List.mem_filter.mpr ⟨(h₀.stored.listed idx _).mpr ⟨n, hn, hcls⟩, ?_⟩
      rw [hn, Option.map_some, Option.getD_some]
      exact hlive
    obtain ⟨i, hi⟩ := List.getElem?_of_mem hmem
    refine ⟨i, (List.getElem?_eq_some_iff.mp hi).1, ?_⟩
    rw [hi, Option.bind_some]
    exact hn

theorem kidIds_eq {c i : Nat} {n : EgNode} (hn : classLiveNode g (some c) i = some n) :
    (List.range n.kids.length).map (egClassNodeKid g (some c) i) = kidIds g n := by
  refine List.ext_getElem (by simp [kidIds]) fun k hk hk' => ?_
  have hlt : k < n.kids.length := by simpa using hk
  simp [kidIds, egClassNodeKid, hn, List.getElem?_eq_getElem hlt]

/-- One turn of the loop reads what `s₀` shows of node `i`. -/
theorem matchTurn_shows (h₀ : Whole s₀.graph) {op : Int} {arity c : Nat}
    {body : Nat → List (Option Nat) → Turn D → Turn D} {Q : Nat → EgNode → Prop}
    (hbody : ∀ i n, classLiveNode s₀.graph (some c) i = some n → NodeAt s₀.graph c n → n.op = op →
      n.kids.length = arity → Shows s₀ tame (body i (kidIds s₀.graph n)) (Q i n)) {i : Nat}
    (hi : i < egClassNodes s₀.graph (some c)) : Shows s₀ tame (matchTurn op arity (some c) body · i)
      (∀ n, classLiveNode s₀.graph (some c) i = some n → n.op = op → n.kids.length = arity → Q i n) := by
  intro t ht hstill
  have hnode : classLiveNode t.state.graph (some c) i = classLiveNode s₀.graph (some c) i := hstill.1.classLiveNode _ _
  have hroot : root t.state.graph.parent = root s₀.graph.parent := funext hstill.1.same.halved.root
  have hkid : egClassNodeKid t.state.graph (some c) i = egClassNodeKid s₀.graph (some c) i := by
    funext k
    unfold egClassNodeKid
    rw [hnode, hroot]
  dsimp only [matchTurn]
  unfold egClassNodeOp egClassNodeNkids
  rw [hnode, hkid]
  cases hlive : classLiveNode s₀.graph (some c) i with
  | none =>
    rw [if_neg fun h => by simp at h]
    exact .inr ⟨hstill, fun n hn => nomatch hn⟩
  | some n =>
    rw [Option.map_some, Option.getD_some, Option.map_some, Option.getD_some]
    by_cases hmatch : n.op = op ∧ (n.kids.length : Int) = arity
    · rw [if_pos hmatch]
      have harity : n.kids.length = arity := Int.ofNat.inj hmatch.2
      rw [← harity, kidIds_eq hlive]
      rcases hbody i n hlive ((classLiveNode_iff h₀ n).mp ⟨i, hi, hlive⟩) hmatch.1 harity t ht hstill with
        hloud | ⟨hstill', hQ⟩
      · exact .inl hloud
      · refine .inr ⟨hstill', fun n' hn' _ _ => ?_⟩
        obtain rfl := Option.some.inj hn'
        exact hQ
    · rw [if_neg hmatch]
      refine .inr ⟨hstill, fun n' hn' hop harity => absurd ⟨?_, ?_⟩ hmatch⟩
      · obtain rfl := Option.some.inj hn'
        exact hop
      · obtain rfl := Option.some.inj hn'
        rw [harity]

theorem matchNode_shows (h₀ : Whole s₀.graph) {op : Int} {arity c : Nat}
    {body : Nat → List (Option Nat) → Turn D → Turn D} (hkeeps : ∀ n kids, Keeps (body n kids))
    {Q : Nat → EgNode → Prop}
    (hbody : ∀ i n, classLiveNode s₀.graph (some c) i = some n → NodeAt s₀.graph c n → n.op = op →
      n.kids.length = arity → Shows s₀ tame (body i (kidIds s₀.graph n)) (Q i n)) :
    Shows s₀ tame (matchNode op arity (some c) body) (∀ n, NodeAt s₀.graph c n → n.op = op → n.kids.length = arity →
      ∃ i, classLiveNode s₀.graph (some c) i = some n ∧ Q i n) := by
  intro t ht hstill
  have hcount : egClassNodes t.state.graph (some c) = egClassNodes s₀.graph (some c) := by
    unfold egClassNodes
    rw [hstill.1.liveNodes]
  unfold matchNode
  rw [hcount]
  rcases foldl_shows (matchTurn_keeps hkeeps) _
      (fun i hi => matchTurn_shows h₀ hbody (List.mem_range.mp hi)) t ht hstill with hloud | ⟨hstill', hall⟩
  · exact .inl hloud
  · refine .inr ⟨hstill', fun n hn hop harity => ?_⟩
    obtain ⟨i, hi, hlive⟩ := (classLiveNode_iff h₀ n).mpr hn
    exact ⟨i, hlive, hall i (List.mem_range.mpr hi) n hlive hop harity⟩

/-- The variables hold classes, and those of `names` are bound. -/
structure EnvOk (s₀ : Analysed D) (names : List String) (env : Env) : Prop where
  valid : ∀ name id, env name = some id → id < s₀.graph.parent.length
  bound : ∀ name ∈ names, ∃ id, env name = some id

mutual

/-- **The loops of a pattern** try what is inside them with every match. -/
theorem matchPat_shows (h₀ : Whole s₀.graph) : ∀ (p : RewritePat) {c : Nat} {names : List String} {env : Env}
    {k : Env → Turn D → Turn D} {R : Env → Prop}, (∀ env, Keeps (k env)) →
      (∀ env, EnvOk s₀ (names ++ binders p) env → Shows s₀ tame (k env) (R env)) → c < s₀.graph.parent.length →
        EnvOk s₀ names env → Shows s₀ tame (matchPat p (some c) env k)
          (∀ σ, Matches s₀.graph σ p c → R (extend (binders p) σ env))
  | .binder name, c, names, env, k, R, hk, hshows, hc, henv => by
    unfold matchPat binders
    have hok : EnvOk s₀ (names ++ [name]) (Function.update env name (some c)) := by
      refine ⟨fun x id hx => ?_, fun x hx => ?_⟩
      · by_cases hname : x = name
        · subst hname
          rw [Function.update_self] at hx
          obtain rfl := Option.some.inj hx
          exact hc
        · rw [Function.update_of_ne hname] at hx
          exact henv.valid x id hx
      · by_cases hname : x = name
        · subst hname
          exact ⟨c, Function.update_self ..⟩
        · rw [Function.update_of_ne hname]
          exact henv.bound x ((List.mem_append.mp hx).resolve_right fun h => hname (List.mem_singleton.mp h))
    refine (hshows _ hok).mono fun hR σ hσ => ?_
    unfold Matches at hσ
    rw [extend_singleton, hσ]
    exact hR
  | .node op ps, c, names, env, k, R, hk, hshows, hc, henv => by
    unfold matchPat
    refine (matchNode_shows h₀ (fun _ kids => matchPats_keeps ps kids env hk) fun i n _ hn _ harity =>
      matchPats_shows h₀ ps n.kids harity ?_ hk hshows henv).mono fun hall σ hσ => ?_
    · obtain ⟨-, idx, hidx, -, -⟩ := hn
      exact h₀.stored.kids idx n hidx
    · unfold Matches at hσ
      obtain ⟨n, hn, hop, hkids⟩ := hσ
      obtain ⟨i, -, hR⟩ := hall n hn hop hkids.length
      exact hR σ hkids

theorem matchPats_shows (h₀ : Whole s₀.graph) : ∀ (ps : List RewritePat) (ids : List Nat), ids.length = ps.length →
    (∀ id ∈ ids, id < s₀.graph.parent.length) → ∀ {names : List String} {env : Env} {k : Env → Turn D → Turn D}
    {R : Env → Prop}, (∀ env, Keeps (k env)) →
      (∀ env, EnvOk s₀ (names ++ bindersAll ps) env → Shows s₀ tame (k env) (R env)) → EnvOk s₀ names env →
        Shows s₀ tame (matchPats ps (ids.map fun id => some (root s₀.graph.parent id)) env k)
          (∀ σ, MatchesAll s₀.graph σ ps ids → R (extend (bindersAll ps) σ env))
  | [], ids, hlen, hids, names, env, k, R, hk, hshows, henv => by
    unfold bindersAll at hshows
    rw [List.append_nil] at hshows
    unfold matchPats bindersAll
    refine (hshows env henv).mono fun hR σ _ => ?_
    rw [extend_nil]
    exact hR
  | p :: ps, [], hlen, hids, names, env, k, R, hk, hshows, henv => nomatch hlen
  | p :: ps, id :: ids, hlen, hids, names, env, k, R, hk, hshows, henv => by
    unfold bindersAll at hshows
    rw [← List.append_assoc] at hshows
    unfold matchPats bindersAll
    refine (matchPat_shows h₀ p (fun env => matchPats_keeps ps _ env hk) (fun env' henv' =>
      matchPats_shows h₀ ps ids (Nat.succ.inj hlen) (fun x hx => hids x (List.mem_cons_of_mem _ hx)) hk hshows henv')
      (h₀.stored.grove.root_lt (hids id List.mem_cons_self)) henv).mono fun hall σ hσ => ?_
    unfold MatchesAll at hσ
    rw [extend_append]
    exact hall σ hσ.1 σ hσ.2

end

end Bbq.Egraph
