import Mathlib.Logic.Function.Basic
import Bbq.Lib.Postorder
import Bbq.Burg.Reduce

/-!
# The emitted rewriter

`burg_rewrite` of the C backend (`emit_rewrite_body`, `emit_rpo_dfs`, `emit_label_body` in
`burgc/src/c_backend.cpp`; `emit_label_alloc`, `emit_label_children`, `emit_reduce_body` in
`burgc/src/generator.cpp`), with the error latch and every allocation that may be refused.

* A node of the graph is its identity (`BURG_NODE_ID`). What hangs below it by child edges is a tree; a
  shared child stands in it once for each parent.
* Each of these asks once, and `refuses` says which requests are refused: a push, an insert into a tree,
  an allocation from the arena.
* The cache points to states that are still being labelled. Where a child of one is refused, the state
  stays in the cache with the children it has got so far and with arrays as they were made.
* The log is that of the rewrite: errors raised (latched or not), calls of the dynamic programme, nodes
  handed to the reducer, actions run.
* A run is `none` where the fuel is used up, and ends in `error` where a null pointer is read.
-/

namespace Bbq.Burg

open Bbq.Lib

variable {ν : Type}

/-- What guards may look at besides the shape of a node. -/
def Node.data {α : Type} : Node α → α
  | .mk _ data _ => data

/-- A graph of nodes. Successors may be null. -/
structure Graph (ν : Type) where
  /-- A node with all that hangs below it. -/
  node : ν → Node ν
  /-- `BURG_NODE_SUCC(n, i)`. -/
  succs : ν → List (Option ν)
  id_node : ∀ n, (node n).data = n
  /-- A child is a node of the graph. -/
  child : ∀ n, ∀ u ∈ (node n).children, u = node u.data

/-- What the rewriter does that can be told from outside. -/
inductive Event (ν : Type)
  /-- `burg_set_error` is called. -/
  | raised (error : String × String)
  /-- `burg_dp` is called at a node whose children have these states. -/
  | programmed (u : Node ν) (children : List State)
  /-- The node is handed to `burg_reduce`, for the start nonterminal. -/
  | handed (n : ν) (s : State)
  /-- The action of a rule starts. -/
  | ran (r : Rule) (u : Node ν)

/-- `burg_ctx_t`, with the number of requests so far and the log. -/
structure Context (ν : Type) where
  error : Ctx
  /-- `state_cache`. -/
  cache : ν → Option State
  asked : Nat
  log : List (Event ν)

namespace Context

def note (c : Context ν) (e : Event ν) : Context ν := { c with log := c.log ++ [e] }

/-- `burg_set_error`: the first one stays. -/
def setError (c : Context ν) (msg arg : String) : Context ν :=
  { c.note (.raised (msg, arg)) with error := c.error.or (some (msg, arg)) }

/-- An error that may have been raised. -/
def raise (c : Context ν) : Ctx → Context ν
  | none => c
  | some (msg, arg) => c.setError msg arg

variable (refuses : Nat → Bool)

/-- A request, and whether it is refused. -/
def ask (c : Context ν) : Bool × Context ν := (refuses c.asked, { c with asked := c.asked + 1 })

/-- What a pointer in the cache points to has been written. -/
def write [DecidableEq ν] (c : Context ν) (id : ν) (s : State) : Context ν :=
  { c with cache := fun n => if n = id ∧ (c.cache n).isSome then some s else c.cache n }

/-- `burg_cache_store`, with the error for a refusal. -/
def cacheStore [DecidableEq ν] (c : Context ν) (id : ν) (s : State) : Context ν :=
  match c.ask refuses with
  | (true, c) => c.setError "out of memory" "0"
  | (false, c) => { c with cache := Function.update c.cache id (some s) }

end Context

section Rewriter

variable [DecidableEq ν] (G : Spec) (eval : String → Node ν → Bool) (refuses : Nat → Bool) (Γ : Graph ν) (fuel : Nat)

/-- `emit_label_alloc`: a state, and an array for its children. `true`: refused. -/
def labelAlloc (us : List (Node ν)) (c : Context ν) : Bool × Context ν :=
  match c.ask refuses with
  | (true, c) => (true, c.setError "burg: out of memory labelling" "0")
  | (false, c) =>
    if us.isEmpty then (false, c)
    else
      match c.ask refuses with
      | (true, c) => (true, c.setError "burg: out of memory labelling" "0")
      | (false, c) => (false, c)

mutual

/-- What `burg_label_tree` and `burg_label` share. Only `burg_label` looks at the cache. No state: refused. -/
def labelWith (cached : Bool) : Node ν → Context ν → Except (Context ν) (Option State × Context ν)
  | .mk op id us, c =>
    match if cached then c.cache id else none with
    | some s => .ok (some s, c)
    | none =>
      match labelAlloc refuses us c with
      | (true, c) => .ok (none, c)
      | (false, c) =>
        -- the state is in the cache before its children are labelled
        match labelChildren cached us (if cached then c.cacheStore refuses id (.mk op .init []) else c) with
        | .error c => .error c
        | .ok (ss, false, c) => .ok (none, if cached then c.write id (.mk op .init ss) else c)
        | .ok (ss, true, c) =>
          let c := c.note (.programmed (.mk op id us) ss)
          match burgDp G eval true fuel (.mk op id us) ss none with
          | none => .error c
          | some (s, raised) =>
            let c := c.raise raised
            .ok (some s, if cached then c.write id s else c)

/-- `emit_label_children`. `false`: a child was refused, and those after it have not been tried. -/
def labelChildren (cached : Bool) : List (Node ν) → Context ν → Except (Context ν) (List State × Bool × Context ν)
  | [], c => .ok ([], true, c)
  | u :: us, c =>
    match labelWith cached u c with
    | .error c => .error c
    | .ok (none, c) => .ok ([], false, c)
    | .ok (some s, c) =>
      match labelChildren cached us c with
      | .error c => .error c
      | .ok (ss, whole, c) => .ok (s :: ss, whole, c)

end

/-- `burg_label_tree`. -/
def burgLabelTree (u : Node ν) (c : Context ν) : Except (Context ν) (Option State × Context ν) :=
  labelWith G eval refuses fuel false u c

/-- `burg_label`. -/
def burgLabel (u : Node ν) (c : Context ν) : Except (Context ν) (Option State × Context ν) :=
  labelWith G eval refuses fuel true u c

/-- `emit_rpo_dfs`: the nodes in reverse postorder, if nothing is refused. -/
def rpoDfs (root : ν) (c : Context ν) : Option (Option (List ν) × Context ν) :=
  match c.ask refuses with
  | (true, c) => some (none, c)
  | (false, c) =>
    match c.ask refuses with
    | (true, c) => some (none, c)
    | (false, c) =>
      (search Γ.succs (Context.ask refuses) fuel ⟨[(root, 0)], [root], [], c⟩).map fun (post, c) =>
        (post.map List.reverse, c)

/-- The run of a part that gives nothing back. -/
abbrev Run (ν : Type) := Option (Except (Context ν) (Context ν))

/-- One part after the other. -/
def Run.andThen (r : Run ν) (next : Context ν → Run ν) : Run ν :=
  r.bind fun
    | .error c => some (.error c)
    | .ok c => next c

/-- Reductions one after the other. -/
def reduceInTurn (reduce : Place ν → String → Context ν → Run ν) : List (Place ν × String) → Context ν → Run ν
  | [], c => some (.ok c)
  | (t, nt) :: goals, c => (reduce t nt c).andThen (reduceInTurn reduce goals)

/-- `burg_reduce` on the context: `burgReduce` with the log. -/
def reduceOn : Nat → Place ν → String → Context ν → Run ν
  | 0, _, _, _ => none
  | fuel + 1, t, goalnt, c =>
    if c.error.isSome then some (.ok c)
    else
      match caseOf G (t.2.table.rule goalnt) with
      | none => some (.ok (c.setError "burg: no rule for goal nonterminal" goalnt))
      | some r =>
        match walked G Place.children r.pattern t with
        | none => some (.error c)
        | some goals =>
          (reduceInTurn (reduceOn fuel) goals c).andThen fun c => some (.ok (c.note (.ran r t.1)))

/-- `has_actions`. -/
def Spec.hasActions : Bool := G.rules.any fun r => r.action ≠ ""

/-- A node is handed to the reducer, if there is one. -/
def hand (n : ν) (s : State) (c : Context ν) : Run ν :=
  if G.hasActions then reduceOn G fuel (Γ.node n, s) G.startNonterm (c.note (.handed n s)) else some (.ok c)

/-- The loop that labels. -/
def labelAll : List ν → Context ν → Except (Context ν) (Context ν)
  | [], c => .ok c
  | n :: ns, c =>
    match burgLabel G eval refuses fuel (Γ.node n) c with
    | .error c => .error c
    | .ok (_, c) => labelAll ns c

/-- The loop that covers. -/
def coverAll : List ν → Context ν → Run ν
  | [], c => some (.ok c)
  | n :: ns, c =>
    let covered : Run ν :=
      match (c.cache n).filter fun s => s.table.rule G.startNonterm ≠ 0 with
      | none => some (.ok (c.setError "burg: start nonterminal does not cover graph node" (Γ.node n).op))
      | some s => hand G Γ fuel n s c
    covered.andThen (coverAll ns)

/-- A root without successors is labelled as a tree. -/
def rewriteTree (root : ν) (c : Context ν) : Run ν :=
  match burgLabelTree G eval refuses fuel (Γ.node root) c with
  | .error c => some (.error c)
  | .ok (none, c) => some (.ok c)
  | .ok (some s, c) =>
    if s.table.rule G.startNonterm = 0 then
      some (.ok (c.setError "burg: start nonterminal has no rule at root" (Γ.node root).op))
    else hand G Γ fuel root s c

/-- The rest of `burg_rewrite`, from `burg_cache_clear` on. -/
def rewriteGraph (root : ν) (c : Context ν) : Run ν :=
  (rpoDfs refuses Γ fuel root { c with cache := fun _ => none }).bind fun
    | (none, c) => some (.ok (c.setError "out of memory" "0"))
    | (some rpo, c) =>
      match labelAll G eval refuses Γ fuel rpo c with
      | .error c => some (.error c)
      | .ok c => coverAll G Γ fuel rpo c

/-- `burg_rewrite`. -/
def burgRewrite (root : ν) (c : Context ν) : Run ν :=
  let c := { c with log := [] }
  if c.error.isSome then some (.ok c)
  else if (Γ.succs root).isEmpty then rewriteTree G eval refuses Γ fuel root c
  else rewriteGraph G eval refuses Γ fuel root c

end Rewriter

end Bbq.Burg
