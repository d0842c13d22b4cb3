import Mathlib.Data.Fintype.Card
import Mathlib.Data.Finset.Prod
import Mathlib.Data.List.Nodup
import Bbq.Burg.Transitions

/-!
# The worklist

What `build_automaton` ends with: transitions are worked out for classes, once for each tuple, as states come up.

* `Reached`: what the states are to be. A terminal with a rule without operands is one, and the transition of an operator
  on the classes of such states is one, where these may stand at their positions.
* `Sound` holds whenever a transition has been recorded: every record is right, every class is of states that may stand
  there, nothing is there that is not reached. `Complete`: every tuple of classes is recorded.
* **`build_spec`**: the worklist empties, as there are only so many states. Then every state is in its class at every
  position, and **`states_iff`** the states are what is reached.
-/

namespace Bbq.Burg.Completeness

open Bbq.Lib

variable {G : Spec} {schema : Option AsdlSchema} {order : TerminalArities G} {aut aut' aut'' : Automaton}

/-! ## What is reached -/

/-- **What the states are to be.** -/
inductive Reached (schema : Option AsdlSchema) (order : TerminalArities G) : StateKey → Prop
  | leaf {term : String} (h : (term, 0) ∈ order.pairs) :
    Reached schema order { terminal := term, bits := (computeTransition G term []).1 }
  | node {op : OpInfo} {keys : List StateKey} (hop : op ∈ opTable G schema order) (hlength : keys.length = op.dims.length)
    (henum : ∀ (d : Nat) (dim : OpDim) (key : StateKey), op.dims[d]? = some dim → keys[d]? = some key →
      enumerable dim key = true)
    (hreached : ∀ key ∈ keys, Reached schema order key) : Reached schema order
      { terminal := op.term, bits := (computeTransition G op.term (List.zipWith project op.dims keys)).1 }

theorem opTable_arity {op : OpInfo} (h : op ∈ opTable G schema order) :
    (op.term, op.dims.length) ∈ order.pairs ∧ op.dims.length ≠ 0 := by
  unfold opTable at h
  rw [List.mem_map] at h
  obtain ⟨p, hp, rfl⟩ := h
  rw [List.mem_filter] at hp
  dsimp only
  rw [List.length_map, List.length_range]
  exact ⟨hp.1, by simpa using hp.2⟩

theorem Reached.terminal {key : StateKey} (h : Reached schema order key) :
    key.terminal ∈ order.pairs.map Prod.fst := by
  cases h with
  | leaf h => exact List.mem_map.mpr ⟨_, h, rfl⟩
  | node hop _ _ _ => exact List.mem_map.mpr ⟨_, (opTable_arity hop).1, rfl⟩

/-! ## Records -/

/-- The classes that a record is about. -/
def keysOf (aut : Automaton) (t : TransitionRecord) : List RepKey :=
  t.op.elim [] fun o => keysFrom (aut.reps o) 0 t.child_reps

/-- One class for each position. -/
def Chosen (aut : Automaton) (o : Nat) (op : OpInfo) (chosen : List Nat) : Prop :=
  chosen.length = op.dims.length ∧ ∀ d r : Nat, chosen[d]? = some r → r < (aut.reps o d).length

/-- What there are records about: terminals that have a rule without operands, and operators on classes. -/
def Shaped (order : TerminalArities G) (aut : Automaton) (t : TransitionRecord) : Prop :=
  t.op = none ∧ t.child_reps = [] ∧ (t.terminal, 0) ∈ order.pairs ∨
    ∃ (o : Nat) (op : OpInfo), t.op = some o ∧ aut.ops[o]? = some op ∧ t.terminal = op.term ∧ Chosen aut o op t.child_reps

/-- What a record is about. -/
def about (t : TransitionRecord) : String × Option Nat × List Nat := (t.terminal, t.op, t.child_reps)

/-- A record leads to the state it should. -/
def Leads (G : Spec) (aut : Automaton) (t : TransitionRecord) : Prop :=
  ∃ st : State, aut.states[t.dest]? = some st ∧
    st.key = { terminal := t.terminal, bits := (computeTransition G t.terminal (keysOf aut t)).1 } ∧
      (computeTransition G t.terminal (keysOf aut t)).2 ⊆ st.contributors

/-- A class of states at a position. -/
structure Rep.Fits (aut : Automaton) (dim : OpDim) (rep : Rep) : Prop where
  inhabited : rep.members ≠ []
  members : ∀ s ∈ rep.members, ∃ st : State, aut.states[s]? = some st ∧ enumerable dim st.key = true ∧
    project dim st.key = rep.key
  covered : rep.any_covered_member = true ↔ ∃ s ∈ rep.members, ∃ st : State, aut.states[s]? = some st ∧
    st.key.bits ≠ 0#64

/-- The state a record leads to derives nothing. -/
def leadsNowhere (aut : Automaton) (t : TransitionRecord) : Bool :=
  (aut.states[t.dest]?.map fun st => st.key.bits) == some 0#64

/-- **The invariant of the worklist**, at every moment. -/
structure Sound (schema : Option AsdlSchema) (order : TerminalArities G) (aut : Automaton) : Prop where
  table : aut.ops = opTable G schema order
  distinct : (aut.states.map State.key).Nodup
  reached : ∀ st ∈ aut.states, Reached schema order st.key
  born : ∀ s < aut.states.length, ∃ t ∈ aut.transitions, t.dest = s
  shaped : ∀ t ∈ aut.transitions, Shaped order aut t
  leads : ∀ t ∈ aut.transitions, Leads G aut t
  keys : ∀ o d, ((aut.reps o d).map Rep.key).Nodup
  classes : ∀ {o d : Nat} {op : OpInfo} {dim : OpDim}, aut.ops[o]? = some op → op.dims[d]? = some dim →
    ∀ rep ∈ aut.reps o d, rep.Fits aut dim
  missing : aut.missing_witnesses = aut.transitions.filter (leadsNowhere aut)
  once : (aut.transitions.map about).Nodup

/-- Every tuple of classes has a record. -/
def Complete (aut : Automaton) : Prop :=
  ∀ {o : Nat} {op : OpInfo} {chosen : List Nat}, aut.ops[o]? = some op → Chosen aut o op chosen →
    ∃ t ∈ aut.transitions, t.op = some o ∧ t.child_reps = chosen

/-- A state is in its class at a position. -/
def PlacedAt (aut : Automaton) (s o d : Nat) : Prop :=
  ∀ {st : State} {op : OpInfo} {dim : OpDim}, aut.states[s]? = some st → aut.ops[o]? = some op →
    op.dims[d]? = some dim → enumerable dim st.key = true → ∃ (r : Nat) (rep : Rep),
      (aut.reps o d)[r]? = some rep ∧ s ∈ rep.members ∧ rep.key = project dim st.key

/-! ## What is never undone -/

/-- What is there stays: states keep their keys, classes theirs, and new states are put on the worklist. -/
structure Grows (aut aut' : Automaton) : Prop where
  ops : aut'.ops = aut.ops
  states : ∀ {s : Nat} {st : State}, aut.states[s]? = some st → ∃ st' : State, aut'.states[s]? = some st' ∧
    st'.key = st.key ∧ st.contributors ⊆ st'.contributors
  reps : ∀ {o d r : Nat} {rep : Rep}, (aut.reps o d)[r]? = some rep → ∃ rep' : Rep, (aut'.reps o d)[r]? = some rep' ∧
    rep'.key = rep.key ∧ rep.members ⊆ rep'.members
  transitions : aut.transitions ⊆ aut'.transitions
  length : aut.states.length ≤ aut'.states.length
  worklist : aut'.worklist = aut.worklist ++ List.range' aut.states.length (aut'.states.length - aut.states.length)

theorem Grows.refl (aut : Automaton) : Grows aut aut where
  ops := rfl
  states := fun h => ⟨_, h, rfl, List.Subset.refl _⟩
  reps := fun h => ⟨_, h, rfl, List.Subset.refl _⟩
  transitions := List.Subset.refl _
  length := le_rfl
  worklist := by rw [Nat.sub_self, List.range'_zero, List.append_nil]

theorem Grows.trans (h : Grows aut aut') (h' : Grows aut' aut'') : Grows aut aut'' where
  ops := h'.ops.trans h.ops
  states := fun hst => by
    obtain ⟨st', hst', hkey, hsub⟩ := h.states hst
    obtain ⟨st'', hst'', hkey', hsub'⟩ := h'.states hst'
    exact ⟨st'', hst'', hkey'.trans hkey, List.Subset.trans hsub hsub'⟩
  reps := fun hrep => by
    obtain ⟨rep', hrep', hkey, hsub⟩ := h.reps hrep
    obtain ⟨rep'', hrep'', hkey', hsub'⟩ := h'.reps hrep'
    exact ⟨rep'', hrep'', hkey'.trans hkey, List.Subset.trans hsub hsub'⟩
  transitions := List.Subset.trans h.transitions h'.transitions
  length := h.length.trans h'.length
  worklist := by
    obtain ⟨m, hm⟩ := Nat.exists_eq_add_of_le h.length
    obtain ⟨n, hn⟩ := Nat.exists_eq_add_of_le h'.length
    rw [h'.worklist, h.worklist, hn, hm, Nat.add_sub_cancel_left, Nat.add_sub_cancel_left, List.append_assoc,
      Nat.add_assoc, Nat.add_sub_cancel_left, List.range'_append_1]

theorem Grows.class_lt (h : Grows aut aut') {o d r : Nat} (hr : r < (aut.reps o d).length) :
    r < (aut'.reps o d).length := by
  obtain ⟨rep', hrep', -⟩ := h.reps (List.getElem?_eq_getElem hr)
  exact (List.getElem?_eq_some_iff.mp hrep').1

theorem Grows.chosen (h : Grows aut aut') {o : Nat} {op : OpInfo} {chosen : List Nat} (hc : Chosen aut o op chosen) :
    Chosen aut' o op chosen := ⟨hc.1, fun d r hr => h.class_lt (hc.2 d r hr)⟩

theorem keysFrom_congr {reps reps' : Nat → List Rep} : ∀ (chosen : List Nat) (d : Nat),
    (∀ k r : Nat, chosen[k]? = some r → ∃ rep rep' : Rep, (reps (d + k))[r]? = some rep ∧
      (reps' (d + k))[r]? = some rep' ∧ rep'.key = rep.key) → keysFrom reps' d chosen = keysFrom reps d chosen := by
  intro chosen
  induction chosen with
  | nil => exact fun _ _ => rfl
  | cons r chosen ih =>
    intro d h
    obtain ⟨rep, rep', hrep, hrep', hkey⟩ := h 0 r rfl
    rw [Nat.add_zero] at hrep hrep'
    unfold keysFrom
    rw [hrep, hrep', Option.map_some, Option.map_some, hkey, ih (d + 1) fun k r' hr' => by
      have := h (k + 1) r' hr'
      rwa [← Nat.add_assoc, Nat.add_right_comm] at this]

theorem Grows.keysFrom (h : Grows aut aut') {o : Nat} {op : OpInfo} {chosen : List Nat} (hc : Chosen aut o op chosen) :
    Completeness.keysFrom (aut'.reps o) 0 chosen = Completeness.keysFrom (aut.reps o) 0 chosen :=
  keysFrom_congr chosen 0 fun d r hr => by
    have hlt := hc.2 d r hr
    rw [Nat.zero_add]
    obtain ⟨rep', hrep', hkey, -⟩ := h.reps (List.getElem?_eq_getElem hlt)
    exact ⟨_, rep', List.getElem?_eq_getElem hlt, hrep', hkey⟩

theorem Grows.shaped (h : Grows aut aut') {t : TransitionRecord} (ht : Shaped order aut t) : Shaped order aut' t := by
  rcases ht with ht | ⟨o, op, hop, hget, hterm, hc⟩
  · exact .inl ht
  · exact .inr ⟨o, op, hop, h.ops ▸ hget, hterm, h.chosen hc⟩

theorem Grows.keysOf (h : Grows aut aut') {t : TransitionRecord} (ht : Shaped order aut t) :
    Completeness.keysOf aut' t = Completeness.keysOf aut t := by
  unfold Completeness.keysOf
  rcases ht with ⟨hop, -, -⟩ | ⟨o, op, hop, -, -, hc⟩
  · rw [hop]
    rfl
  · rw [hop]
    exact h.keysFrom hc

theorem Grows.leads (h : Grows aut aut') {t : TransitionRecord} (hshaped : Shaped order aut t) (ht : Leads G aut t) :
    Leads G aut' t := by
  obtain ⟨st, hst, hkey, hsub⟩ := ht
  obtain ⟨st', hst', hkey', hsub'⟩ := h.states hst
  unfold Leads
  rw [h.keysOf hshaped]
  exact ⟨st', hst', hkey'.trans hkey, List.Subset.trans hsub hsub'⟩

theorem Grows.fits (h : Grows aut aut') {dim : OpDim} {rep : Rep} (hrep : rep.Fits aut dim) : rep.Fits aut' dim where
  inhabited := hrep.inhabited
  members := fun s hs => by
    obtain ⟨st, hst, henum, hkey⟩ := hrep.members s hs
    obtain ⟨st', hst', hkey', -⟩ := h.states hst
    exact ⟨st', hst', by rw [hkey']; exact henum, by rw [hkey']; exact hkey⟩
  covered := by
    rw [hrep.covered]
    constructor
    · rintro ⟨s, hs, st, hst, hbits⟩
      obtain ⟨st', hst', hkey', -⟩ := h.states hst
      exact ⟨s, hs, st', hst', by rw [hkey']; exact hbits⟩
    · rintro ⟨s, hs, st', hst', hbits⟩
      obtain ⟨st, hst, -⟩ := hrep.members s hs
      obtain ⟨st'', hst'', hkey', -⟩ := h.states hst
      obtain rfl := Option.some.inj (hst'.symm.trans hst'')
      exact ⟨s, hs, st, hst, by rw [← hkey']; exact hbits⟩

theorem Grows.leadsNowhere (h : Grows aut aut') {t : TransitionRecord} (ht : Leads G aut t) :
    Completeness.leadsNowhere aut' t = Completeness.leadsNowhere aut t := by
  obtain ⟨st, hst, -⟩ := ht
  obtain ⟨st', hst', hkey, -⟩ := h.states hst
  unfold Completeness.leadsNowhere
  rw [hst, hst', Option.map_some, Option.map_some, hkey]

theorem Grows.placedAt (h : Grows aut aut') {s o d : Nat} (hs : s < aut.states.length) (hp : PlacedAt aut s o d) :
    PlacedAt aut' s o d := by
  intro st' op dim hst' hop hdim henum
  obtain ⟨st'', hst'', hkey, -⟩ := h.states (List.getElem?_eq_getElem hs)
  obtain rfl := Option.some.inj (hst'.symm.trans hst'')
  rw [hkey] at henum ⊢
  rw [h.ops] at hop
  obtain ⟨r, rep, hrep, hmem, hproj⟩ := hp (List.getElem?_eq_getElem hs) hop hdim henum
  obtain ⟨rep', hrep', hkey', hsub⟩ := h.reps hrep
  exact ⟨r, rep', hrep', hsub hmem, hkey'.trans hproj⟩

/-! ## A transition worked out -/

/-- The number of a state, whether it is new or not. -/
theorem intern_spec (aut : Automaton) (key : StateKey) (contributors : Contributors) :
    Grows aut (intern aut key contributors).2 ∧
    (intern aut key contributors).2.transitions = aut.transitions ∧
    (intern aut key contributors).2.missing_witnesses = aut.missing_witnesses ∧
    (intern aut key contributors).2.reps = aut.reps ∧
    (∃ st : State, (intern aut key contributors).2.states[(intern aut key contributors).1]? = some st ∧ st.key = key ∧
      contributors ⊆ st.contributors) ∧
    ((intern aut key contributors).2.states.map State.key = aut.states.map State.key ∨
      (intern aut key contributors).2.states.map State.key = aut.states.map State.key ++ [key] ∧
        (intern aut key contributors).1 = aut.states.length ∧ key ∉ aut.states.map State.key) := by
  unfold intern
  cases hfind : aut.states.findIdx? fun st => st.key == key with
  | some id =>
    dsimp only
    rw [List.findIdx?_eq_some_iff_getElem] at hfind
    obtain ⟨hlt, hkey, -⟩ := hfind
    have hmodify : ∀ {s : Nat} {st : State}, aut.states[s]? = some st →
        ∃ st' : State, (aut.states.modify id fun st => { st with contributors := contributors ∪ st.contributors })[s]? =
          some st' ∧ st'.key = st.key ∧ st.contributors ⊆ st'.contributors ∧
            (s = id → contributors ⊆ st'.contributors) := by
      intro s st hst
      rw [List.getElem?_modify, hst, Option.map_eq_map, Option.map_some]
      by_cases hs : id = s
      · rw [if_pos hs]
        exact ⟨_, rfl, rfl, fun x hx => List.mem_union_iff.mpr (.inr hx),
          fun _ x hx => List.mem_union_iff.mpr (.inl hx)⟩
      · rw [if_neg hs]
        exact ⟨st, rfl, rfl, List.Subset.refl _, fun h => absurd h.symm hs⟩
    refine ⟨⟨rfl, fun hst => ?_, fun h => ⟨_, h, rfl, List.Subset.refl _⟩, List.Subset.refl _, ?_, ?_⟩, rfl, rfl, rfl,
      ?_, .inl ?_⟩
    · obtain ⟨st', hst', hkey', hsub, -⟩ := hmodify hst
      exact ⟨st', hst', hkey', hsub⟩
    · dsimp only
      rw [List.length_modify]
    · dsimp only
      rw [List.length_modify, Nat.sub_self, List.range'_zero, List.append_nil]
    · obtain ⟨st', hst', hkey', -, hsub⟩ := hmodify (List.getElem?_eq_getElem hlt)
      exact ⟨st', hst', hkey'.trans (eq_of_beq hkey), hsub rfl⟩
    · refine List.ext_getElem? fun s => ?_
      rw [List.getElem?_map, List.getElem?_map]
      cases hst : aut.states[s]? with
      | none =>
        rw [List.getElem?_modify, hst]
        rfl
      | some st =>
        obtain ⟨st', hst', hkey', -⟩ := hmodify hst
        rw [hst', Option.map_some, Option.map_some, hkey']
  | none =>
    dsimp only
    rw [List.findIdx?_eq_none_iff] at hfind
    refine ⟨⟨rfl, fun hst => ⟨_, ?_, rfl, List.Subset.refl _⟩, fun h => ⟨_, h, rfl, List.Subset.refl _⟩,
      List.Subset.refl _, ?_, ?_⟩, rfl, rfl, rfl, ⟨{ key, contributors }, ?_, rfl, List.Subset.refl _⟩,
      .inr ⟨?_, rfl, ?_⟩⟩
    · exact List.getElem?_append_left (List.getElem?_eq_some_iff.mp hst).1 |>.trans hst
    · simp
    · simp
    · rw [List.getElem?_append_right le_rfl, Nat.sub_self]
      rfl
    · rw [List.map_append]
      rfl
    · intro hmem
      obtain ⟨st, hst, hkey⟩ := List.mem_map.mp hmem
      have := hfind st hst
      rw [hkey, beq_self_eq_true] at this
      cases this

/-- What `evaluate` interns. -/
def interned (G : Spec) (aut : Automaton) (term : String) (keys : List RepKey) : Nat × Automaton :=
  intern aut { terminal := term, bits := (computeTransition G term keys).1 } (computeTransition G term keys).2

/-- The record that it adds. -/
def recordOf (G : Spec) (aut : Automaton) (term : String) (op : Option Nat) (reps : List Nat) (keys : List RepKey) :
    TransitionRecord where
  terminal := term
  op := op
  child_reps := reps
  dest := (interned G aut term keys).1

section Evaluate

variable (G aut) (term : String) (op : Option Nat) (reps : List Nat) (keys : List RepKey)

theorem recordTransition_eq (aut : Automaton) (t : TransitionRecord) : recordTransition aut t = { aut with
    transitions := aut.transitions ++ [t]
    missing_witnesses := aut.missing_witnesses ++ [t].filter (leadsNowhere aut) } := by
  unfold recordTransition
  dsimp only
  by_cases hzero : (aut.states[t.dest]?.map fun st => st.key.bits) = some 0#64
  · rw [if_pos hzero, List.filter_cons_of_pos (by unfold leadsNowhere; rw [hzero]; rfl), List.filter_nil]
  · rw [if_neg hzero, List.filter_cons_of_neg (by unfold leadsNowhere; simpa using hzero), List.filter_nil,
      List.append_nil]

theorem recordTransition_grows (aut : Automaton) (t : TransitionRecord) : Grows aut (recordTransition aut t) := by
  rw [recordTransition_eq]
  exact ⟨rfl, fun h => ⟨_, h, rfl, List.Subset.refl _⟩, fun h => ⟨_, h, rfl, List.Subset.refl _⟩,
    List.subset_append_left _ _, le_rfl, by rw [Nat.sub_self, List.range'_zero, List.append_nil]⟩

theorem evaluate_eq : evaluate G aut term op reps keys =
    { (interned G aut term keys).2 with
      transitions := aut.transitions ++ [recordOf G aut term op reps keys]
      missing_witnesses := aut.missing_witnesses ++
        [recordOf G aut term op reps keys].filter (leadsNowhere (interned G aut term keys).2) } := by
  have hspec := intern_spec aut { terminal := term, bits := (computeTransition G term keys).1 }
    (computeTransition G term keys).2
  show recordTransition (interned G aut term keys).2 (recordOf G aut term op reps keys) = _
  rw [recordTransition_eq, show (interned G aut term keys).2.transitions = aut.transitions from hspec.2.1,
    show (interned G aut term keys).2.missing_witnesses = aut.missing_witnesses from hspec.2.2.1]

theorem evaluate_grows : Grows aut (evaluate G aut term op reps keys) :=
  (intern_spec aut _ _).1.trans (recordTransition_grows (interned G aut term keys).2 (recordOf G aut term op reps keys))

theorem evaluate_reps : (evaluate G aut term op reps keys).reps = aut.reps := by
  rw [evaluate_eq]
  exact (intern_spec aut _ _).2.2.2.1

theorem evaluate_transitions : (evaluate G aut term op reps keys).transitions =
    aut.transitions ++ [recordOf G aut term op reps keys] := by
  rw [evaluate_eq]

variable {G aut}

/-- **A transition worked out** keeps the invariant. -/
theorem evaluate_sound (h : Sound schema order aut) (hshaped : Shaped order aut (recordOf G aut term op reps keys))
    (hkeys : keysOf aut (recordOf G aut term op reps keys) = keys)
    (hreached : Reached schema order { terminal := term, bits := (computeTransition G term keys).1 })
    (hnew : (term, op, reps) ∉ aut.transitions.map about) : Sound schema order (evaluate G aut term op reps keys) := by
  have hgrows := evaluate_grows G aut term op reps keys
  obtain ⟨-, -, -, -, hdest, hkeyset⟩ := intern_spec aut
    { terminal := term, bits := (computeTransition G term keys).1 } (computeTransition G term keys).2
  rw [show intern aut _ _ = interned G aut term keys from rfl] at hdest hkeyset
  have hstates : (evaluate G aut term op reps keys).states = (interned G aut term keys).2.states := by
    rw [evaluate_eq]
  have hlead : Leads G (evaluate G aut term op reps keys) (recordOf G aut term op reps keys) := by
    unfold Leads
    rw [hgrows.keysOf hshaped, hkeys, hstates]
    exact hdest
  refine ⟨hgrows.ops.trans h.table, ?_, fun st hst => ?_, fun s hs => ?_, fun t ht => ?_, fun t ht => ?_, fun o d => ?_,
    fun {o d op' dim} hop hdim rep hrep => ?_, ?_, ?_⟩
  · rw [hstates]
    rcases hkeyset with heq | ⟨heq, -, hnew⟩
    · rw [heq]
      exact h.distinct
    · rw [heq]
      exact List.nodup_append.mpr ⟨h.distinct, List.nodup_singleton _, fun a ha b hb hab => by
        rw [List.mem_singleton] at hb
        exact hnew (hb ▸ hab ▸ ha)⟩
  · have hmem : st.key ∈ (evaluate G aut term op reps keys).states.map State.key := List.mem_map_of_mem hst
    rw [hstates] at hmem
    have hold : ∀ key ∈ aut.states.map State.key, Reached schema order key := fun key hkey => by
      obtain ⟨st', hst', rfl⟩ := List.mem_map.mp hkey
      exact h.reached st' hst'
    rcases hkeyset with heq | ⟨heq, -, -⟩
    · exact hold _ (heq ▸ hmem)
    · rw [heq, List.mem_append, List.mem_singleton] at hmem
      rcases hmem with hmem | hmem
      · exact hold _ hmem
      · rw [hmem]
        exact hreached
  · have hlength := congrArg List.length hstates
    rw [evaluate_transitions]
    by_cases hold : s < aut.states.length
    · obtain ⟨t, ht, hdest⟩ := h.born s hold
      exact ⟨t, List.mem_append_left _ ht, hdest⟩
    · refine ⟨_, List.mem_append_right _ (List.mem_singleton_self _), ?_⟩
      rcases hkeyset with heq | ⟨heq, hid, -⟩
      · have := congrArg List.length heq
        rw [List.length_map, List.length_map] at this
        omega
      · have := congrArg List.length heq
        rw [List.length_append, List.length_map, List.length_map, List.length_singleton] at this
        show (interned G aut term keys).1 = s
        omega
  · rw [evaluate_transitions, List.mem_append, List.mem_singleton] at ht
    rcases ht with ht | rfl
    · exact hgrows.shaped (h.shaped t ht)
    · exact hgrows.shaped hshaped
  · rw [evaluate_transitions, List.mem_append, List.mem_singleton] at ht
    rcases ht with ht | rfl
    · exact hgrows.leads (h.shaped t ht) (h.leads t ht)
    · exact hlead
  · rw [evaluate_reps]
    exact h.keys o d
  · rw [evaluate_reps] at hrep
    rw [hgrows.ops] at hop
    exact hgrows.fits (h.classes hop hdim rep hrep)
  · have hold : aut.transitions.filter (leadsNowhere (evaluate G aut term op reps keys)) =
        aut.transitions.filter (leadsNowhere aut) :=
      List.filter_congr fun t ht => hgrows.leadsNowhere (h.leads t ht)
    have hnowhere : leadsNowhere (evaluate G aut term op reps keys) = leadsNowhere (interned G aut term keys).2 := by
      unfold leadsNowhere
      rw [hstates]
    rw [evaluate_transitions, List.filter_append, hold, ← h.missing, hnowhere, evaluate_eq]
  · rw [evaluate_transitions, List.map_append]
    refine List.nodup_append.mpr ⟨h.once, List.nodup_singleton _, fun a ha b hb hab => ?_⟩
    rw [List.map_cons, List.map_nil, List.mem_singleton] at hb
    subst hab hb
    exact hnew ha

end Evaluate

/-! ## Tuples of classes -/

theorem mem_choices {count : Nat → Nat} {fixed_dim fixed_rep : Nat} : ∀ (dims d : Nat) (chosen : List Nat),
    chosen ∈ choices count fixed_dim fixed_rep dims d ↔ chosen.length = dims ∧ ∀ k r : Nat, chosen[k]? = some r →
      if d + k = fixed_dim then r = fixed_rep else r < count (d + k) := by
  intro dims
  induction dims with
  | zero =>
    intro d chosen
    unfold choices
    rw [List.mem_singleton, List.length_eq_zero_iff]
    constructor
    · rintro rfl
      exact ⟨rfl, fun k r h => by simp at h⟩
    · exact fun h => h.1
  | succ dims ih =>
    intro d chosen
    have hfirst : ∀ r, r ∈ (if d = fixed_dim then [fixed_rep] else List.range (count d)) ↔
        if d = fixed_dim then r = fixed_rep else r < count d := fun r => by
      by_cases hd : d = fixed_dim
      · rw [if_pos hd, if_pos hd, List.mem_singleton]
      · rw [if_neg hd, if_neg hd, List.mem_range]
    unfold choices
    rw [List.mem_flatMap]
    constructor
    · rintro ⟨r, hr, hmem⟩
      obtain ⟨rest, hrest, rfl⟩ := List.mem_map.mp hmem
      obtain ⟨hlength, hall⟩ := (ih (d + 1) rest).mp hrest
      refine ⟨by rw [List.length_cons, hlength], fun k r' hr' => ?_⟩
      cases k with
      | zero =>
        obtain rfl := Option.some.inj hr'
        exact (hfirst r).mp hr
      | succ k =>
        have := hall k r' hr'
        rwa [Nat.add_assoc, Nat.add_comm 1] at this
    · rintro ⟨hlength, hall⟩
      cases chosen with
      | nil => cases hlength
      | cons r rest =>
        refine ⟨r, (hfirst r).mpr (hall 0 r rfl), List.mem_map.mpr ⟨rest, (ih (d + 1) rest).mpr
          ⟨Nat.succ.inj hlength, fun k r' hr' => ?_⟩, rfl⟩⟩
        have := hall (k + 1) r' hr'
        rwa [Nat.add_comm k, ← Nat.add_assoc] at this

theorem choices_nodup {count : Nat → Nat} {fixed_dim fixed_rep : Nat} : ∀ dims d : Nat,
    (choices count fixed_dim fixed_rep dims d).Nodup := by
  intro dims
  induction dims with
  | zero => exact fun d => List.nodup_singleton _
  | succ dims ih =>
    intro d
    unfold choices
    refine List.nodup_flatMap.mpr ⟨fun r _ => (ih (d + 1)).map fun a b hab => (List.cons.inj hab).2, ?_⟩
    have hfirst : (if d = fixed_dim then [fixed_rep] else List.range (count d)).Nodup := by
      by_cases hd : d = fixed_dim
      · rw [if_pos hd]
        exact List.nodup_singleton _
      · rw [if_neg hd]
        exact List.nodup_range
    refine List.Pairwise.imp (fun {r r'} hne => ?_) hfirst
    intro chosen hr hr'
    obtain ⟨_, -, rfl⟩ := List.mem_map.mp hr
    obtain ⟨_, -, heq⟩ := List.mem_map.mp hr'
    exact hne (List.cons.inj heq).1.symm

theorem keysFrom_getElem? (reps : Nat → List Rep) : ∀ (chosen : List Nat) (d k : Nat), (keysFrom reps d chosen)[k]? =
    chosen[k]?.map fun r => ((reps (d + k))[r]?.map Rep.key).getD { bits := 0#64, terminal := "" } := by
  intro chosen
  induction chosen with
  | nil => exact fun _ _ => rfl
  | cons r chosen ih =>
    intro d k
    unfold keysFrom
    cases k with
    | zero => rfl
    | succ k =>
      rw [List.getElem?_cons_succ, List.getElem?_cons_succ, ih, Nat.add_assoc, Nat.add_comm 1]

/-- Classes are classes of states that are reached. -/
theorem Sound.tuple (h : Sound schema order aut) {o : Nat} {op : OpInfo} {chosen : List Nat}
    (hop : aut.ops[o]? = some op) (hc : Chosen aut o op chosen) : ∃ keys : List StateKey,
      keys.length = op.dims.length ∧
      (∀ (d : Nat) (dim : OpDim) (key : StateKey), op.dims[d]? = some dim → keys[d]? = some key →
        enumerable dim key = true) ∧
      (∀ key ∈ keys, Reached schema order key) ∧ List.zipWith project op.dims keys = keysFrom (aut.reps o) 0 chosen := by
  have hpoint : ∀ d, ∃ key : StateKey, d < op.dims.length → ∃ (dim : OpDim) (rep : Rep) (r : Nat),
      op.dims[d]? = some dim ∧ chosen[d]? = some r ∧ (aut.reps o d)[r]? = some rep ∧ enumerable dim key = true ∧
        Reached schema order key ∧ project dim key = rep.key := by
    intro d
    by_cases hd : d < op.dims.length
    · have hdim := List.getElem?_eq_getElem hd
      have hr := List.getElem?_eq_getElem (hc.1.symm ▸ hd)
      have hrep := List.getElem?_eq_getElem (hc.2 d _ hr)
      have hfits := h.classes hop hdim _ (List.mem_of_getElem? hrep)
      obtain ⟨s, hs⟩ := List.exists_mem_of_ne_nil _ hfits.inhabited
      obtain ⟨st, hst, henum, hkey⟩ := hfits.members s hs
      exact ⟨st.key, fun _ => ⟨_, _, _, hdim, hr, hrep, henum, h.reached st (List.mem_of_getElem? hst), hkey⟩⟩
    · exact ⟨{ terminal := "", bits := 0#64 }, fun h => absurd h hd⟩
  choose key hkey using hpoint
  have hget : ∀ {d : Nat} {k : StateKey}, ((List.range op.dims.length).map key)[d]? = some k →
      d < op.dims.length ∧ k = key d := by
    intro d k hk
    rw [List.getElem?_map, Option.map_eq_some_iff] at hk
    obtain ⟨e, he, rfl⟩ := hk
    obtain ⟨hlt, rfl⟩ := List.getElem?_eq_some_iff.mp he
    rw [List.length_range] at hlt
    rw [List.getElem_range]
    exact ⟨hlt, rfl⟩
  refine ⟨(List.range op.dims.length).map key, by rw [List.length_map, List.length_range], fun d dim k hdim hk => ?_,
    fun k hk => ?_, ?_⟩
  · obtain ⟨hlt, rfl⟩ := hget hk
    obtain ⟨dim', _, _, hdim', -, -, henum, -⟩ := hkey d hlt
    obtain rfl := Option.some.inj (hdim.symm.trans hdim')
    exact henum
  · obtain ⟨d, hd⟩ := List.mem_iff_getElem?.mp hk
    obtain ⟨hlt, rfl⟩ := hget hd
    obtain ⟨_, _, _, -, -, -, -, hreached, -⟩ := hkey d hlt
    exact hreached
  · refine List.ext_getElem? fun d => ?_
    rw [List.getElem?_zipWith, keysFrom_getElem?, List.getElem?_map, Nat.zero_add]
    by_cases hd : d < op.dims.length
    · obtain ⟨dim, rep, r, hdim, hr, hrep, -, -, hproj⟩ := hkey d hd
      rw [hdim, hr, List.getElem?_range hd, Option.map_some, Option.map_some, hrep]
      simp [hproj]
    · have hd' : chosen.length ≤ d := hc.1.symm ▸ not_lt.mp hd
      rw [List.getElem?_eq_none (not_lt.mp hd), List.getElem?_eq_none hd']
      rfl

theorem Grows.tick (n : Nat) : Grows aut { aut with tuples_evaluated := n } :=
  ⟨rfl, (Grows.refl aut).states, (Grows.refl aut).reps, List.Subset.refl _, le_rfl, (Grows.refl aut).worklist⟩

theorem Sound.tick (h : Sound schema order aut) (n : Nat) : Sound schema order { aut with tuples_evaluated := n } :=
  ⟨h.table, h.distinct, h.reached, h.born, h.shaped, h.leads, h.keys,
    fun hop hdim rep hrep => (Grows.tick n).fits (h.classes hop hdim rep hrep), h.missing, h.once⟩

/-- **Tuples of classes worked out**, none of them before. -/
theorem foldl_evaluate {o : Nat} {op : OpInfo} {reps : Nat → List Rep} (l : List (List Nat)) :
    ∀ {aut : Automaton}, Sound schema order aut → aut.ops[o]? = some op → aut.reps o = reps →
      (∀ chosen ∈ l, Chosen aut o op chosen) → l.Nodup →
      (∀ t ∈ aut.transitions, t.op = some o → t.child_reps ∉ l) →
      let aut' := l.foldl (fun aut chosen => evaluate G { aut with tuples_evaluated := aut.tuples_evaluated + 1 } op.term
        (some o) chosen (keysFrom reps 0 chosen)) aut
      Sound schema order aut' ∧ Grows aut aut' ∧ aut'.reps = aut.reps ∧
        ∀ chosen ∈ l, ∃ t ∈ aut'.transitions, t.op = some o ∧ t.child_reps = chosen := by
  induction l with
  | nil => exact fun {aut} h _ _ _ _ _ => ⟨h, .refl aut, rfl, fun _ hmem => absurd hmem List.not_mem_nil⟩
  | cons chosen l ih =>
    intro aut h hop hreps hchosen hnodup hnew
    have hgrows : Grows aut (evaluate G { aut with tuples_evaluated := aut.tuples_evaluated + 1 } op.term (some o) chosen
        (keysFrom reps 0 chosen)) := (Grows.tick _).trans (evaluate_grows G _ _ _ _ _)
    have hreps' := evaluate_reps G { aut with tuples_evaluated := aut.tuples_evaluated + 1 } op.term (some o) chosen
      (keysFrom reps 0 chosen)
    have htransitions := evaluate_transitions G { aut with tuples_evaluated := aut.tuples_evaluated + 1 } op.term (some o)
      chosen (keysFrom reps 0 chosen)
    have hc := hchosen chosen List.mem_cons_self
    have hsound := evaluate_sound op.term (some o) chosen (keysFrom reps 0 chosen) (h.tick (aut.tuples_evaluated + 1))
      (.inr ⟨o, op, rfl, hop, rfl, hc⟩)
      (by rw [← hreps]; rfl) (by
        obtain ⟨keys, hlength, henum, hreached, hproj⟩ := h.tuple hop hc
        rw [← hreps, ← hproj]
        exact .node (h.table ▸ List.mem_of_getElem? hop) hlength henum hreached) (fun hmem => by
          obtain ⟨t, ht, habout⟩ := List.mem_map.mp hmem
          unfold about at habout
          rw [Prod.mk.injEq, Prod.mk.injEq] at habout
          exact hnew t ht habout.2.1 (habout.2.2 ▸ List.mem_cons_self))
    obtain ⟨hsound', hgrows', hreps'', hall⟩ := ih hsound (by rw [hgrows.ops]; exact hop) (by rw [hreps']; exact hreps)
      (fun c hmem => hgrows.chosen (hchosen c (List.mem_cons_of_mem _ hmem))) (List.nodup_cons.mp hnodup).2
      (fun t ht hto hmem => by
        rw [htransitions, List.mem_append, List.mem_singleton] at ht
        rcases ht with ht | rfl
        · exact hnew t ht hto (List.mem_cons_of_mem _ hmem)
        · exact (List.nodup_cons.mp hnodup).1 hmem)
    refine ⟨hsound', hgrows.trans hgrows', hreps''.trans hreps', fun c hmem => ?_⟩
    rcases List.mem_cons.mp hmem with rfl | hmem
    · refine ⟨recordOf G { aut with tuples_evaluated := aut.tuples_evaluated + 1 } op.term (some o) c (keysFrom reps 0 c),
        hgrows'.transitions ?_, rfl, rfl⟩
      rw [htransitions]
      exact List.mem_append_right _ (List.mem_singleton_self _)
    · exact hall c hmem

/-- **A new class**: with it pinned, every tuple is worked out. -/
theorem enumerateWith_spec (h : Sound schema order aut) {o d r : Nat} {op : OpInfo} (hop : aut.ops[o]? = some op)
    (hd : d < op.dims.length) (hr : r < (aut.reps o d).length)
    (hnew : ∀ t ∈ aut.transitions, t.op = some o → t.child_reps[d]? ≠ some r) :
    Sound schema order (enumerateWith G aut o d r) ∧ Grows aut (enumerateWith G aut o d r) ∧
      (enumerateWith G aut o d r).reps = aut.reps ∧ ∀ chosen, Chosen aut o op chosen → chosen[d]? = some r →
        ∃ t ∈ (enumerateWith G aut o d r).transitions, t.op = some o ∧ t.child_reps = chosen := by
  unfold enumerateWith
  rw [hop]
  dsimp only
  have hchoice : ∀ chosen, chosen ∈ choices (fun d => (aut.reps o d).length) d r op.dims.length 0 ↔
      Chosen aut o op chosen ∧ chosen[d]? = some r := by
    intro chosen
    rw [mem_choices]
    constructor
    · rintro ⟨hlength, hall⟩
      have hpinned : chosen[d]? = some r := by
        have hlt : d < chosen.length := hlength ▸ hd
        have := hall d _ (List.getElem?_eq_getElem hlt)
        rw [if_pos (Nat.zero_add d)] at this
        rw [List.getElem?_eq_getElem hlt, this]
      refine ⟨⟨hlength, fun k r' hr' => ?_⟩, hpinned⟩
      have := hall k r' hr'
      rw [Nat.zero_add] at this
      split at this
      · next hk =>
        subst hk this
        exact hr
      · exact this
    · rintro ⟨⟨hlength, hall⟩, hpinned⟩
      refine ⟨hlength, fun k r' hr' => ?_⟩
      rw [Nat.zero_add]
      split
      · next hk =>
        subst hk
        exact Option.some.inj (hr'.symm.trans hpinned)
      · exact hall k r' hr'
  obtain ⟨hsound, hgrows, hreps, hall⟩ := foldl_evaluate (choices (fun d => (aut.reps o d).length) d r op.dims.length 0) h
    hop rfl (fun chosen hmem => ((hchoice chosen).mp hmem).1) (choices_nodup _ _)
    fun t ht hto hmem => hnew t ht hto ((hchoice _).mp hmem).2
  exact ⟨hsound, hgrows, hreps, fun chosen hc hpinned => hall chosen ((hchoice chosen).mpr ⟨hc, hpinned⟩)⟩

/-! ## A state popped -/

theorem setReps_reps (aut : Automaton) (o d : Nat) (reps : List Rep) (o' d' : Nat) :
    (setReps aut o d reps).reps o' d' = if o' = o ∧ d' = d then reps else aut.reps o' d' := rfl

theorem setReps_self (aut : Automaton) (o d : Nat) (reps : List Rep) : (setReps aut o d reps).reps o d = reps :=
  if_pos ⟨rfl, rfl⟩

section SetReps

variable {o d : Nat} {reps : List Rep}

theorem setReps_grows (hkept : ∀ {r : Nat} {rep : Rep}, (aut.reps o d)[r]? = some rep → ∃ rep' : Rep,
    reps[r]? = some rep' ∧ rep'.key = rep.key ∧ rep.members ⊆ rep'.members) : Grows aut (setReps aut o d reps) where
  ops := rfl
  states := fun h => ⟨_, h, rfl, List.Subset.refl _⟩
  reps := fun {o' d' r rep} hrep => by
    rw [setReps_reps]
    by_cases hpos : o' = o ∧ d' = d
    · obtain ⟨rfl, rfl⟩ := hpos
      rw [if_pos ⟨rfl, rfl⟩]
      exact hkept hrep
    · rw [if_neg hpos]
      exact ⟨rep, hrep, rfl, List.Subset.refl _⟩
  transitions := List.Subset.refl _
  length := le_rfl
  worklist := (Grows.refl aut).worklist

theorem setReps_sound (h : Sound schema order aut) (hgrows : Grows aut (setReps aut o d reps))
    (hkeys : (reps.map Rep.key).Nodup) (hfits : ∀ {op : OpInfo} {dim : OpDim}, aut.ops[o]? = some op →
      op.dims[d]? = some dim → ∀ rep ∈ reps, rep.Fits aut dim) : Sound schema order (setReps aut o d reps) where
  table := h.table
  distinct := h.distinct
  reached := h.reached
  born := h.born
  shaped := fun t ht => hgrows.shaped (h.shaped t ht)
  leads := fun t ht => hgrows.leads (h.shaped t ht) (h.leads t ht)
  keys := fun o' d' => by
    rw [setReps_reps]
    split
    · exact hkeys
    · exact h.keys o' d'
  classes := fun {o' d' op dim} hop hdim rep hrep => by
    rw [setReps_reps] at hrep
    split at hrep
    · next hpos =>
      obtain ⟨rfl, rfl⟩ := hpos
      exact hgrows.fits (hfits hop hdim rep hrep)
    · exact hgrows.fits (h.classes hop hdim rep hrep)
  missing := h.missing
  once := h.once

end SetReps

/-! ### An old class -/

/-- The class with one member more. -/
def Rep.joined (s : Nat) (key : StateKey) (rep : Rep) : Rep :=
  { rep with members := rep.members ++ [s]
             any_covered_member := rep.any_covered_member || key.bits != 0#64 }

theorem Rep.Fits.joined {dim : OpDim} {rep : Rep} (h : rep.Fits aut dim) {s : Nat} {st : State}
    (hst : aut.states[s]? = some st) (henum : enumerable dim st.key = true) (hkey : rep.key = project dim st.key) :
    (rep.joined s st.key).Fits aut dim where
  inhabited := by simp [Rep.joined]
  members := fun s' hs' => by
    rcases List.mem_append.mp hs' with hs' | hs'
    · exact h.members s' hs'
    · obtain rfl := List.mem_singleton.mp hs'
      exact ⟨st, hst, henum, hkey.symm⟩
  covered := by
    unfold Rep.joined
    dsimp only
    rw [Bool.or_eq_true, h.covered, bne_iff_ne]
    constructor
    · rintro (⟨s', hs', hst'⟩ | hbits)
      · exact ⟨s', List.mem_append_left _ hs', hst'⟩
      · exact ⟨s, List.mem_append_right _ (List.mem_singleton_self s), st, hst, hbits⟩
    · rintro ⟨s', hs', st', hst', hbits⟩
      rcases List.mem_append.mp hs' with hs' | hs'
      · exact .inl ⟨s', hs', st', hst', hbits⟩
      · obtain rfl := List.mem_singleton.mp hs'
        obtain rfl := Option.some.inj (hst'.symm.trans hst)
        exact .inr hbits

/-- The popped state joins its class. -/
theorem join_spec (h : Sound schema order aut) (hc : Complete aut) {s o d r : Nat} {st : State} {op : OpInfo} {dim : OpDim}
    (hst : aut.states[s]? = some st) (hop : aut.ops[o]? = some op) (hdim : op.dims[d]? = some dim)
    (henum : enumerable dim st.key = true) {rep : Rep} (hrep : (aut.reps o d)[r]? = some rep)
    (hkey : rep.key = project dim st.key) {aut' : Automaton}
    (haut : aut' = setReps aut o d ((aut.reps o d).modify r (Rep.joined s st.key))) :
    Sound schema order aut' ∧ Complete aut' ∧ Grows aut aut' ∧ PlacedAt aut' s o d := by
  have hmodify : ∀ {k : Nat} {q : Rep}, (aut.reps o d)[k]? = some q → ∃ q' : Rep,
      ((aut.reps o d).modify r (Rep.joined s st.key))[k]? = some q' ∧ q'.key = q.key ∧ q.members ⊆ q'.members ∧
        (k = r → s ∈ q'.members) ∧ (q.Fits aut dim → q'.Fits aut dim) := by
    intro k q hq
    rw [List.getElem?_modify, hq, Option.map_eq_map, Option.map_some]
    by_cases hk : r = k
    · subst hk
      obtain rfl := Option.some.inj (hrep.symm.trans hq)
      rw [if_pos rfl]
      exact ⟨_, rfl, rfl, List.subset_append_left _ _, fun _ => List.mem_append_right _ (List.mem_singleton_self s),
        fun hfits => hfits.joined hst henum hkey⟩
    · rw [if_neg hk]
      exact ⟨q, rfl, rfl, List.Subset.refl _, fun h => absurd h.symm hk, fun hfits => hfits⟩
  have hgrows : Grows aut aut' := by
    rw [haut]
    refine setReps_grows fun hq => ?_
    obtain ⟨q', hq', hkey', hsub, -⟩ := hmodify hq
    exact ⟨q', hq', hkey', hsub⟩
  have hsame : ((aut.reps o d).modify r (Rep.joined s st.key)).map Rep.key = (aut.reps o d).map Rep.key := by
    refine List.ext_getElem? fun k => ?_
    rw [List.getElem?_map, List.getElem?_map]
    cases hq : (aut.reps o d)[k]? with
    | none =>
      rw [List.getElem?_modify, hq]
      rfl
    | some q =>
      obtain ⟨q', hq', hkey', -⟩ := hmodify hq
      rw [hq', Option.map_some, Option.map_some, hkey']
  subst haut
  refine ⟨setReps_sound h hgrows (by rw [hsame]; exact h.keys o d) fun {op' dim'} hop' hdim' q' hq' => ?_,
    fun {o' op' chosen} hop' hchosen => ?_, hgrows, fun {st' op' dim'} hst' hop' hdim' _ => ?_⟩
  · obtain rfl := Option.some.inj (hop.symm.trans hop')
    obtain rfl := Option.some.inj (hdim.symm.trans hdim')
    obtain ⟨k, hk⟩ := List.mem_iff_getElem?.mp hq'
    have hklt := (List.getElem?_eq_some_iff.mp hk).1
    rw [List.length_modify] at hklt
    have hold := List.getElem?_eq_getElem hklt
    obtain ⟨q'', hq'', -, -, -, hfits⟩ := hmodify hold
    obtain rfl := Option.some.inj (hk.symm.trans hq'')
    exact hfits (h.classes hop hdim _ (List.mem_of_getElem? hold))
  · refine hc hop' ⟨hchosen.1, fun k r' hr' => ?_⟩
    have := hchosen.2 k r' hr'
    rw [setReps_reps] at this
    split at this
    · next hpos =>
      rw [hpos.1, hpos.2]
      rwa [List.length_modify] at this
    · exact this
  · obtain rfl := Option.some.inj (hst.symm.trans hst')
    obtain rfl := Option.some.inj (hop.symm.trans hop')
    obtain rfl := Option.some.inj (hdim.symm.trans hdim')
    obtain ⟨q', hq', hkey', -, hmem, -⟩ := hmodify hrep
    exact ⟨r, q', by rw [setReps_self]; exact hq', hmem rfl, hkey'.trans hkey⟩

/-! ### A new class -/

/-- The class of one state. -/
def Rep.single (dim : OpDim) (s : Nat) (key : StateKey) : Rep :=
  { key := project dim key, members := [s], any_covered_member := key.bits != 0#64 }

theorem Rep.single_fits {dim : OpDim} {s : Nat} {st : State} (hst : aut.states[s]? = some st)
    (henum : enumerable dim st.key = true) : (Rep.single dim s st.key).Fits aut dim where
  inhabited := by simp [Rep.single]
  members := fun s' hs' => by
    obtain rfl := List.mem_singleton.mp hs'
    exact ⟨st, hst, henum, rfl⟩
  covered := by
    unfold Rep.single
    rw [bne_iff_ne]
    constructor
    · exact fun hbits => ⟨s, List.mem_singleton_self s, st, hst, hbits⟩
    · rintro ⟨s', hs', st', hst', hbits⟩
      obtain rfl := List.mem_singleton.mp hs'
      obtain rfl := Option.some.inj (hst'.symm.trans hst)
      exact hbits

/-- The popped state opens a class: what that takes part in is worked out. -/
theorem open_spec (h : Sound schema order aut) (hc : Complete aut) {s o d : Nat} {st : State} {op : OpInfo} {dim : OpDim}
    (hst : aut.states[s]? = some st) (hop : aut.ops[o]? = some op) (hdim : op.dims[d]? = some dim)
    (henum : enumerable dim st.key = true) (hfresh : project dim st.key ∉ (aut.reps o d).map Rep.key)
    {aut' : Automaton} (haut : aut' = enumerateWith G (setReps aut o d (aut.reps o d ++ [Rep.single dim s st.key])) o d
      (aut.reps o d).length) :
    Sound schema order aut' ∧ Complete aut' ∧ Grows aut aut' ∧ PlacedAt aut' s o d := by
  have hadded : Grows aut (setReps aut o d (aut.reps o d ++ [Rep.single dim s st.key])) :=
    setReps_grows fun hq => ⟨_, (List.getElem?_append_left (List.getElem?_eq_some_iff.mp hq).1).trans hq, rfl,
      List.Subset.refl _⟩
  have hkeys : ((aut.reps o d ++ [Rep.single dim s st.key]).map Rep.key).Nodup := by
    rw [List.map_append]
    refine List.nodup_append.mpr ⟨h.keys o d, List.nodup_singleton _, fun a ha b hb hab => ?_⟩
    rw [List.map_cons, List.map_nil, List.mem_singleton] at hb
    subst hb hab
    exact hfresh ha
  have hsound := setReps_sound h hadded hkeys fun {op' dim'} hop' hdim' q hq => by
    obtain rfl := Option.some.inj (hop.symm.trans hop')
    obtain rfl := Option.some.inj (hdim.symm.trans hdim')
    rcases List.mem_append.mp hq with hq | hq
    · exact h.classes hop hdim q hq
    · obtain rfl := List.mem_singleton.mp hq
      exact Rep.single_fits hst henum
  have hnew : ∀ t ∈ aut.transitions, t.op = some o → t.child_reps[d]? ≠ some (aut.reps o d).length := by
    intro t ht hto hlast
    rcases h.shaped t ht with ⟨hnone, -, -⟩ | ⟨o', op', hto', -, -, hchosen⟩
    · rw [hto] at hnone
      cases hnone
    · obtain rfl := Option.some.inj (hto.symm.trans hto')
      exact absurd (hchosen.2 d _ hlast) (Nat.lt_irrefl _)
  obtain ⟨hsound', hworked, hreps, hall⟩ := enumerateWith_spec hsound hop (List.getElem?_eq_some_iff.mp hdim).1
    (by rw [setReps_self, List.length_append]; exact Nat.lt_succ_self _) hnew
  rw [← haut] at hsound' hworked hreps hall
  have hgrows := hadded.trans hworked
  refine ⟨hsound', fun {o' op' chosen} hop' hchosen => ?_, hgrows, fun {st' op' dim'} hst' hop' hdim' _ => ?_⟩
  · rw [hgrows.ops] at hop'
    have hafter : Chosen (setReps aut o d (aut.reps o d ++ [Rep.single dim s st.key])) o' op' chosen :=
      ⟨hchosen.1, fun k r' hr' => by rw [← hreps]; exact hchosen.2 k r' hr'⟩
    by_cases hpinned : o' = o ∧ chosen[d]? = some (aut.reps o d).length
    · obtain ⟨rfl, hlast⟩ := hpinned
      obtain rfl := Option.some.inj (hop.symm.trans hop')
      exact hall chosen hafter hlast
    · have hbefore : Chosen aut o' op' chosen := by
        refine ⟨hchosen.1, fun k r' hr' => ?_⟩
        have hlt := hafter.2 k r' hr'
        rw [setReps_reps] at hlt
        split at hlt
        · next hpos =>
          rw [hpos.1, hpos.2]
          rw [List.length_append, List.length_singleton] at hlt
          have hne : r' ≠ (aut.reps o d).length := by
            rintro rfl
            exact hpinned ⟨hpos.1, hpos.2 ▸ hr'⟩
          omega
        · exact hlt
      obtain ⟨t, ht, hto, hreps'⟩ := hc hop' hbefore
      exact ⟨t, hgrows.transitions ht, hto, hreps'⟩
  · obtain ⟨st'', hst'', hkey, -⟩ := hgrows.states hst
    obtain rfl := Option.some.inj (hst'.symm.trans hst'')
    rw [hgrows.ops] at hop'
    obtain rfl := Option.some.inj (hop.symm.trans hop')
    obtain rfl := Option.some.inj (hdim.symm.trans hdim')
    refine ⟨(aut.reps o d).length, Rep.single dim s st.key, ?_, List.mem_singleton_self s, by rw [hkey]; rfl⟩
    rw [hreps, setReps_self, List.getElem?_append_right le_rfl, Nat.sub_self]
    rfl

/-- The popped state in its class at one position. -/
theorem visitDim_spec (h : Sound schema order aut) (hc : Complete aut) {s : Nat} {st : State}
    (hst : aut.states[s]? = some st) (o d : Nat) :
    Sound schema order (visitDim G s st.key o aut d) ∧ Complete (visitDim G s st.key o aut d) ∧
      Grows aut (visitDim G s st.key o aut d) ∧ PlacedAt (visitDim G s st.key o aut d) s o d := by
  unfold visitDim
  cases hdim : aut.ops[o]?.bind fun op => op.dims[d]? with
  | none =>
    refine ⟨h, hc, .refl aut, fun {st' op dim} _ hop hdim' _ => ?_⟩
    rw [hop, Option.bind_some, hdim'] at hdim
    cases hdim
  | some dim =>
    obtain ⟨op, hop, hdim⟩ := Option.bind_eq_some_iff.mp hdim
    dsimp only
    cases henum : enumerable dim st.key with
    | false =>
      refine ⟨h, hc, .refl aut, fun {st' op' dim'} hst' hop' hdim' henum' => ?_⟩
      obtain rfl := Option.some.inj (hst.symm.trans hst')
      obtain rfl := Option.some.inj (hop.symm.trans hop')
      obtain rfl := Option.some.inj (hdim.symm.trans hdim')
      rw [henum] at henum'
      cases henum'
    | true =>
      rw [if_pos rfl]
      cases hfind : (aut.reps o d).findIdx? fun rep => rep.key == project dim st.key with
      | some r =>
        rw [List.findIdx?_eq_some_iff_getElem] at hfind
        obtain ⟨hlt, hkey, -⟩ := hfind
        exact join_spec h hc hst hop hdim henum (List.getElem?_eq_getElem hlt) (eq_of_beq hkey) rfl
      | none =>
        rw [List.findIdx?_eq_none_iff] at hfind
        refine open_spec h hc hst hop hdim henum (fun hmem => ?_) rfl
        obtain ⟨rep, hrep, hkey⟩ := List.mem_map.mp hmem
        have := hfind rep hrep
        rw [hkey, beq_self_eq_true] at this
        cases this

/-- **A loop over what the popped state may take part in.** -/
theorem foldl_visit {s : Nat} {key : StateKey} (visit : Automaton → Nat → Automaton) {P : Automaton → Nat → Prop}
    (hstep : ∀ {aut : Automaton} (x : Nat), Sound schema order aut → Complete aut →
      (∃ st : State, aut.states[s]? = some st ∧ st.key = key) → Sound schema order (visit aut x) ∧
        Complete (visit aut x) ∧ Grows aut (visit aut x) ∧ P (visit aut x) x)
    (hkeep : ∀ {aut aut' : Automaton} (x : Nat), Grows aut aut' → s < aut.states.length → P aut x → P aut' x)
    (l : List Nat) : ∀ {aut : Automaton}, Sound schema order aut → Complete aut →
      (∃ st : State, aut.states[s]? = some st ∧ st.key = key) → Sound schema order (l.foldl visit aut) ∧
        Complete (l.foldl visit aut) ∧ Grows aut (l.foldl visit aut) ∧ ∀ x ∈ l, P (l.foldl visit aut) x := by
  induction l with
  | nil => exact fun {aut} h hc _ => ⟨h, hc, .refl aut, fun x hx => absurd hx List.not_mem_nil⟩
  | cons x l ih =>
    intro aut h hc hst
    obtain ⟨hsound, hcomplete, hgrows, hx⟩ := hstep x h hc hst
    obtain ⟨st, hget, hkey⟩ := hst
    obtain ⟨st', hget', hkey', -⟩ := hgrows.states hget
    obtain ⟨hsound', hcomplete', hgrows', hall⟩ := ih hsound hcomplete ⟨st', hget', hkey'.trans hkey⟩
    refine ⟨hsound', hcomplete', hgrows.trans hgrows', fun y hy => ?_⟩
    rcases List.mem_cons.mp hy with rfl | hy
    · exact hkeep y hgrows' (List.getElem?_eq_some_iff.mp hget').1 hx
    · exact hall y hy

theorem visitOp_spec (h : Sound schema order aut) (hc : Complete aut) {s : Nat} {key : StateKey}
    (hst : ∃ st : State, aut.states[s]? = some st ∧ st.key = key) (o : Nat) :
    Sound schema order (visitOp G s key aut o) ∧ Complete (visitOp G s key aut o) ∧
      Grows aut (visitOp G s key aut o) ∧ ∀ d, PlacedAt (visitOp G s key aut o) s o d := by
  obtain ⟨hsound, hcomplete, hgrows, hall⟩ := foldl_visit (visitDim G s key o) (P := fun aut d => PlacedAt aut s o d)
    (fun {aut} d h hc hst => by
      obtain ⟨st, hget, rfl⟩ := hst
      exact visitDim_spec h hc hget o d)
    (fun d hgrows hs hp => hgrows.placedAt hs hp)
    (List.range ((aut.ops[o]?.map fun op => op.dims.length).getD 0)) h hc hst
  refine ⟨hsound, hcomplete, hgrows, fun d => ?_⟩
  intro st op dim hst hop hdim henum
  have hop' : aut.ops[o]? = some op := by
    rw [← hgrows.ops]
    exact hop
  have hd : d ∈ List.range ((aut.ops[o]?.map fun op => op.dims.length).getD 0) := by
    rw [hop', Option.map_some, Option.getD_some, List.mem_range]
    exact (List.getElem?_eq_some_iff.mp hdim).1
  exact hall d hd hst hop hdim henum

/-! ## The run -/

/-- **The invariant of the worklist**, between two turns. -/
structure Working (schema : Option AsdlSchema) (order : TerminalArities G) (aut : Automaton) : Prop where
  sound : Sound schema order aut
  complete : Complete aut
  placed : ∀ s < aut.states.length, s ∉ aut.worklist → ∀ o d, PlacedAt aut s o d
  seeded : ∀ p ∈ order.pairs, p.2 = 0 → ∃ t ∈ aut.transitions, t.op = none ∧ t.terminal = p.1

/-- How many keys there are for states. -/
def keyspace (order : TerminalArities G) : Nat :=
  ((order.pairs.map Prod.fst).toFinset ×ˢ Finset.range 18446744073709551616).card

theorem Sound.states_le (h : Sound schema order aut) : aut.states.length ≤ keyspace order := by
  have hnodup : ((aut.states.map State.key).map fun key => (key.terminal, key.bits.toNat)).Nodup := by
    refine h.distinct.map fun key key' heq => ?_
    obtain ⟨term, bits⟩ := key
    obtain ⟨term', bits'⟩ := key'
    obtain ⟨hterm, hbits⟩ := Prod.mk.inj heq
    dsimp only at hterm hbits
    rw [hterm, BitVec.eq_of_toNat_eq hbits]
  have hcard := List.toFinset_card_of_nodup hnodup
  rw [List.length_map, List.length_map] at hcard
  unfold keyspace
  rw [← hcard]
  refine Finset.card_le_card fun p hp => ?_
  rw [List.mem_toFinset, List.mem_map] at hp
  obtain ⟨key, hkey, rfl⟩ := hp
  obtain ⟨st, hst, rfl⟩ := List.mem_map.mp hkey
  rw [Finset.mem_product, List.mem_toFinset, Finset.mem_range]
  exact ⟨(h.reached st hst).terminal, st.key.bits.isLt⟩

/-- **One turn**: a state is popped and put into its classes, or there is none. -/
theorem popTurn_spec (h : Working schema order aut) : aut.worklist = [] ∧ popTurn G aut = .inr aut ∨
    ∃ aut', popTurn G aut = .inl aut' ∧ Working schema order aut' ∧
      2 * (keyspace order - aut'.states.length) + aut'.worklist.length <
        2 * (keyspace order - aut.states.length) + aut.worklist.length := by
  cases hwork : aut.worklist with
  | nil =>
    refine .inl ⟨rfl, ?_⟩
    unfold popTurn
    rw [hwork]
  | cons s rest =>
    refine .inr ?_
    have hsound : Sound schema order { aut with worklist := rest } := ⟨h.sound.table, h.sound.distinct, h.sound.reached,
      h.sound.born, h.sound.shaped, h.sound.leads, h.sound.keys,
      fun hop hdim rep hrep => ⟨(h.sound.classes hop hdim rep hrep).inhabited, (h.sound.classes hop hdim rep hrep).members,
        (h.sound.classes hop hdim rep hrep).covered⟩, h.sound.missing, h.sound.once⟩
    have hplaced : ∀ s' < aut.states.length, s' ≠ s → s' ∉ rest →
        ∀ o d, PlacedAt { aut with worklist := rest } s' o d := by
      intro s' hs' hne hrest o d
      refine h.placed s' hs' (fun hmem => ?_) o d
      rw [hwork] at hmem
      rcases List.mem_cons.mp hmem with heq | hmem
      · exact hne heq
      · exact hrest hmem
    unfold popTurn
    rw [hwork]
    dsimp only
    cases hst : aut.states[s]? with
    | none =>
      refine ⟨_, rfl, ⟨hsound, h.complete, fun s' hs' hrest o d => ?_, h.seeded⟩, ?_⟩
      · rcases eq_or_ne s' s with rfl | hne
        · rw [List.getElem?_eq_none_iff] at hst
          exact absurd hs' (not_lt.mpr hst)
        · exact hplaced s' hs' hne hrest o d
      · dsimp only
        rw [List.length_cons]
        omega
    | some st =>
      obtain ⟨hsound', hcomplete', hgrows, hall⟩ := foldl_visit (visitOp G s st.key)
        (P := fun aut o => ∀ d, PlacedAt aut s o d) (fun {aut} o h hc hst => visitOp_spec h hc hst o)
        (fun o hgrows hs hp d => hgrows.placedAt hs (hp d)) (List.range aut.ops.length) hsound h.complete ⟨st, hst, rfl⟩
      refine ⟨_, rfl, ⟨hsound', hcomplete', fun s' hs' hrest o d => ?_, fun p hp hzero => ?_⟩, ?_⟩
      · rw [hgrows.worklist, List.mem_append, List.mem_range'_1] at hrest
        dsimp only at hrest
        have hold : s' < aut.states.length := by
          by_contra hge
          exact hrest (.inr ⟨not_lt.mp hge, by omega⟩)
        rcases eq_or_ne s' s with rfl | hne
        · intro st' op dim hst' hop hdim henum
          have hop' : aut.ops[o]? = some op := by
            rw [hgrows.ops] at hop
            exact hop
          exact hall o (List.mem_range.mpr (List.getElem?_eq_some_iff.mp hop').1) d hst' hop hdim henum
        · intro st' op dim hst' hop hdim henum
          exact hgrows.placedAt hold (hplaced s' hold hne (fun hmem => hrest (.inl hmem)) o d) hst' hop hdim henum
      · obtain ⟨t, ht, hop⟩ := h.seeded p hp hzero
        exact ⟨t, hgrows.transitions ht, hop⟩
      · have hle := hsound'.states_le
        have hlength := hgrows.length
        rw [hgrows.worklist, List.length_append, List.length_range', List.length_cons]
        dsimp only at hlength ⊢
        omega

theorem emptyAutomaton_sound : Sound schema order (emptyAutomaton G schema order) where
  table := rfl
  distinct := List.nodup_nil
  reached := fun _ h => absurd h List.not_mem_nil
  born := fun _ h => absurd h (Nat.not_lt_zero _)
  shaped := fun _ h => absurd h List.not_mem_nil
  leads := fun _ h => absurd h List.not_mem_nil
  keys := fun _ _ => List.nodup_nil
  classes := fun _ _ _ h => absurd h List.not_mem_nil
  missing := rfl
  once := List.nodup_nil

/-- The terminals without operands, one after the other. -/
theorem foldl_seeds (l : List (String × Nat)) : ∀ {aut : Automaton}, Sound schema order aut →
    (∀ p ∈ l, p ∈ order.pairs ∧ p.2 = 0) → l.Nodup →
    (∀ t ∈ aut.transitions, t.op = none → (t.terminal, 0) ∉ l) →
    let aut' := l.foldl (fun aut p => evaluate G aut p.1 none [] []) aut
    Sound schema order aut' ∧ Grows aut aut' ∧ aut'.reps = aut.reps ∧
      ∀ p ∈ l, ∃ t ∈ aut'.transitions, t.op = none ∧ t.terminal = p.1 := by
  induction l with
  | nil => exact fun {aut} h _ _ _ => ⟨h, .refl aut, rfl, fun p hp => absurd hp List.not_mem_nil⟩
  | cons p l ih =>
    intro aut h hl hnodup hnew
    obtain ⟨hp, hzero⟩ := hl p List.mem_cons_self
    have hpair : p = (p.1, 0) := Prod.ext rfl hzero
    have htransitions := evaluate_transitions G aut p.1 none [] []
    have hsound := evaluate_sound p.1 none [] [] h (.inl ⟨rfl, rfl, hpair ▸ hp⟩) rfl (.leaf (hpair ▸ hp)) (fun hmem => by
        obtain ⟨t, ht, habout⟩ := List.mem_map.mp hmem
        unfold about at habout
        rw [Prod.mk.injEq, Prod.mk.injEq] at habout
        refine hnew t ht habout.2.1 ?_
        rw [habout.1, ← hpair]
        exact List.mem_cons_self)
    obtain ⟨hsound', hgrows', hreps, hall⟩ := ih hsound (fun q hq => hl q (List.mem_cons_of_mem _ hq))
      (List.nodup_cons.mp hnodup).2 (fun t ht hop hmem => by
        rw [htransitions, List.mem_append, List.mem_singleton] at ht
        rcases ht with ht | rfl
        · exact hnew t ht hop (List.mem_cons_of_mem _ hmem)
        · refine (List.nodup_cons.mp hnodup).1 ?_
          rw [hpair]
          exact hmem)
    refine ⟨hsound', (evaluate_grows G aut p.1 none [] []).trans hgrows', hreps.trans (evaluate_reps G aut p.1 none [] []),
      fun q hq => ?_⟩
    rcases List.mem_cons.mp hq with rfl | hq
    · refine ⟨recordOf G aut q.1 none [] [], hgrows'.transitions ?_, rfl, rfl⟩
      rw [htransitions]
      exact List.mem_append_right _ (List.mem_singleton_self _)
    · exact hall q hq

theorem seeds_working : Working schema order (seeds G order (emptyAutomaton G schema order)) := by
  unfold seeds
  obtain ⟨hsound, hgrows, hreps, hall⟩ := foldl_seeds (order.pairs.filter fun p => p.2 = 0)
    (emptyAutomaton_sound : Sound schema order (emptyAutomaton G schema order))
    (fun p hp => by
      rw [List.mem_filter, decide_eq_true_eq] at hp
      exact hp)
    (order.nodup.filter _) (fun t ht => absurd ht List.not_mem_nil)
  refine ⟨hsound, fun {o op chosen} hop hchosen => ?_, fun s hs hwork => ?_, fun p hp hzero => ?_⟩
  · -- an operator has a position, and there are no classes yet
    have hpos := (opTable_arity (hsound.table ▸ List.mem_of_getElem? hop)).2
    have hlt : 0 < chosen.length := hchosen.1 ▸ Nat.pos_of_ne_zero hpos
    have hclass := hchosen.2 0 _ (List.getElem?_eq_getElem hlt)
    rw [hreps] at hclass
    exact absurd hclass (Nat.not_lt_zero _)
  · refine absurd ?_ hwork
    rw [hgrows.worklist]
    exact List.mem_append_right _ (List.mem_range'_1.mpr ⟨Nat.zero_le s, (Nat.zero_add _).symm ▸ hs⟩)
  · exact hall p (List.mem_filter.mpr ⟨hp, decide_eq_true hzero⟩)

/-- **The worklist empties.** -/
theorem build_spec (schema : Option AsdlSchema) (order : TerminalArities G) (hG : Narrow G) :
    ∃ aut, Settles (buildAutomaton G schema order) (some aut) ∧ Working schema order aut ∧ aut.worklist = [] := by
  obtain ⟨aut, hsettles, hworking, hempty⟩ := settles_loop (P := Working schema order)
    (Q := fun aut => Working schema order aut ∧ aut.worklist = []) (fun _ aut => some (popTurn G aut))
    (fun aut => 2 * (keyspace order - aut.states.length) + aut.worklist.length) (fun aut h => by
      refine ⟨popTurn G aut, .const _, fun aut' hgo => ?_, fun aut' hleave => ?_⟩
      · rcases popTurn_spec h with ⟨-, hturn⟩ | ⟨aut'', hturn, hworking, hless⟩
        · rw [hturn] at hgo
          cases hgo
        · rw [hturn] at hgo
          obtain rfl := Sum.inl.inj hgo
          exact ⟨hless, hworking⟩
      · rcases popTurn_spec h with ⟨hempty, hturn⟩ | ⟨aut'', hturn, -⟩
        · rw [hturn] at hleave
          obtain rfl := Sum.inr.inj hleave
          exact ⟨h, hempty⟩
        · rw [hturn] at hleave
          cases hleave) (seeds G order (emptyAutomaton G schema order)) seeds_working
  refine ⟨aut, ?_, hworking, hempty⟩
  have hif : buildAutomaton G schema order = fun fuel =>
      (loop (fun aut => some (popTurn G aut)) fuel (seeds G order (emptyAutomaton G schema order))).map some := by
    funext fuel
    unfold buildAutomaton
    exact if_neg (not_lt.mpr hG)
  rw [hif]
  exact hsettles.map some

/-! ## What it ends with -/

/-- States that may stand at the positions of an operator: their classes have a record. -/
theorem Working.transition (h : Working schema order aut) (hempty : aut.worklist = []) {o : Nat} {op : OpInfo}
    (hop : aut.ops[o]? = some op) (ids : List Nat) (keys : List StateKey) (hids : ids.length = op.dims.length)
    (hkeys : keys.length = op.dims.length)
    (hstates : ∀ (d s : Nat) (key : StateKey), ids[d]? = some s → keys[d]? = some key →
      ∃ st : State, aut.states[s]? = some st ∧ st.key = key)
    (henum : ∀ (d : Nat) (dim : OpDim) (key : StateKey), op.dims[d]? = some dim → keys[d]? = some key →
      enumerable dim key = true) :
    ∃ t ∈ aut.transitions, t.op = some o ∧ t.terminal = op.term ∧ t.child_reps.length = op.dims.length ∧
      keysOf aut t = List.zipWith project op.dims keys ∧
        ∀ d s : Nat, ids[d]? = some s →
          ∃ rep : Rep, (aut.reps o d)[t.child_reps.getD d 0]? = some rep ∧ s ∈ rep.members := by
  have hpoint : ∀ d, ∃ r : Nat, d < op.dims.length → ∃ (dim : OpDim) (key : StateKey) (s : Nat) (rep : Rep),
      op.dims[d]? = some dim ∧ keys[d]? = some key ∧ ids[d]? = some s ∧ (aut.reps o d)[r]? = some rep ∧
        s ∈ rep.members ∧ rep.key = project dim key := by
    intro d
    by_cases hd : d < op.dims.length
    · have hdim := List.getElem?_eq_getElem hd
      have hkey := List.getElem?_eq_getElem (hkeys.symm ▸ hd)
      have hid := List.getElem?_eq_getElem (hids.symm ▸ hd)
      obtain ⟨st, hst, hstkey⟩ := hstates d _ _ hid hkey
      obtain ⟨r, rep, hrep, hmem, hproj⟩ := h.placed _ (List.getElem?_eq_some_iff.mp hst).1
        (hempty ▸ List.not_mem_nil) o d hst hop hdim (hstkey.symm ▸ henum d _ _ hdim hkey)
      exact ⟨r, fun _ => ⟨_, _, _, rep, hdim, hkey, hid, hrep, hmem, by rw [hproj, hstkey]⟩⟩
    · exact ⟨0, fun h => absurd h hd⟩
  choose r hr using hpoint
  have hget : ∀ d : Nat, ((List.range op.dims.length).map r)[d]? = if d < op.dims.length then some (r d) else none := by
    intro d
    rw [List.getElem?_map]
    by_cases hd : d < op.dims.length
    · rw [List.getElem?_range hd, if_pos hd, Option.map_some]
    · rw [if_neg hd, List.getElem?_eq_none (by rw [List.length_range]; exact not_lt.mp hd), Option.map_none]
  have hchosen : Chosen aut o op ((List.range op.dims.length).map r) := by
    refine ⟨by rw [List.length_map, List.length_range], fun d r' hr' => ?_⟩
    rw [hget] at hr'
    split at hr'
    · next hd =>
      obtain rfl := Option.some.inj hr'
      obtain ⟨_, _, _, rep, -, -, -, hrep, -⟩ := hr d hd
      exact (List.getElem?_eq_some_iff.mp hrep).1
    · cases hr'
  obtain ⟨t, ht, hto, hreps⟩ := h.complete hop hchosen
  have hterm : t.terminal = op.term := by
    rcases h.sound.shaped t ht with ⟨hnone, -⟩ | ⟨o', op', hto', hop', hterm, -⟩
    · rw [hto] at hnone
      cases hnone
    · obtain rfl := Option.some.inj (hto.symm.trans hto')
      obtain rfl := Option.some.inj (hop.symm.trans hop')
      exact hterm
  refine ⟨t, ht, hto, hterm, by rw [hreps, List.length_map, List.length_range], ?_, fun d s hs => ?_⟩
  · unfold keysOf
    rw [hto, hreps]
    refine List.ext_getElem? fun d => ?_
    show (keysFrom (aut.reps o) 0 _)[d]? = _
    rw [List.getElem?_zipWith, keysFrom_getElem?, hget, Nat.zero_add]
    by_cases hd : d < op.dims.length
    · obtain ⟨dim, key, s, rep, hdim, hkey, -, hrep, -, hproj⟩ := hr d hd
      rw [if_pos hd, hdim, hkey, Option.map_some, hrep]
      simp [hproj]
    · rw [if_neg hd, List.getElem?_eq_none (not_lt.mp hd)]
      rfl
  · have hd : d < op.dims.length := hids ▸ (List.getElem?_eq_some_iff.mp hs).1
    obtain ⟨_, _, s', rep, -, -, hs', hrep, hmem, -⟩ := hr d hd
    obtain rfl := Option.some.inj (hs.symm.trans hs')
    refine ⟨rep, ?_, hmem⟩
    rw [hreps, List.getD_eq_getElem?_getD, hget, if_pos hd]
    exact hrep

/-- **The states** are what is reached. -/
theorem Working.states_iff (h : Working schema order aut) (hempty : aut.worklist = []) {key : StateKey} :
    key ∈ aut.states.map State.key ↔ Reached schema order key := by
  constructor
  · intro hmem
    obtain ⟨st, hst, rfl⟩ := List.mem_map.mp hmem
    exact h.sound.reached st hst
  · intro hreached
    induction hreached with
    | leaf hpair =>
      obtain ⟨t, ht, hop, hterm⟩ := h.seeded _ hpair rfl
      obtain ⟨st, hst, hkey, -⟩ := h.sound.leads t ht
      unfold keysOf at hkey
      rw [hop, hterm] at hkey
      exact List.mem_map.mpr ⟨st, List.mem_of_getElem? hst, hkey⟩
    | @node op keys hop hlength henum _ ih =>
      rw [← h.sound.table] at hop
      obtain ⟨o, ho⟩ := List.mem_iff_getElem?.mp hop
      have hpoint : ∀ key, ∃ s : Nat, key ∈ keys → ∃ st : State, aut.states[s]? = some st ∧ st.key = key := by
        intro key
        by_cases hkey : key ∈ keys
        · obtain ⟨st, hst, heq⟩ := List.mem_map.mp (ih key hkey)
          obtain ⟨s, hs⟩ := List.mem_iff_getElem?.mp hst
          exact ⟨s, fun _ => ⟨st, hs, heq⟩⟩
        · exact ⟨0, fun hmem => absurd hmem hkey⟩
      choose id hid using hpoint
      obtain ⟨t, ht, -, hterm, -, hkeys, -⟩ := h.transition hempty ho (keys.map id) keys
        (by rw [List.length_map, hlength]) hlength (fun d s key hs hkey => by
          rw [List.getElem?_map, hkey, Option.map_some] at hs
          obtain rfl := Option.some.inj hs
          exact hid key (List.mem_of_getElem? hkey)) henum
      obtain ⟨st, hst, hkey, -⟩ := h.sound.leads t ht
      rw [hkeys, hterm] at hkey
      exact List.mem_map.mpr ⟨st, List.mem_of_getElem? hst, hkey⟩

end Bbq.Burg.Completeness
