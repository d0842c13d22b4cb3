import Bbq.Crt.Iterate

/-!
# The dictionary as a finite map

* `Answers` is what a map from byte strings to values answers to a call. A `put` may be refused: the map stays, and
  the allocator refused memory or the key has no room in a `size_t`.
* `Follows` puts the answers of a run together.
* **`calls_follow`**: under any hash, seed and pattern of refusals the replies of a dictionary are a map's, its count
  is that of the map's keys, and iteration gives each entry of the map once.
-/

namespace Bbq.Crt

open Bbq.Lib

variable {V : Type}

/-- The calls of a dictionary's user. -/
inductive Call (V : Type)
  | put (key : Key) (value : Option V)
  | get (key : Key)
  | contains (key : Key)
  | delete (key : Key)
  | clear

/-- What they return. -/
inductive Reply (V : Type)
  | done (ok : Bool)
  | value (v : Option V)
  | found (b : Bool)
  | cleared

def Dict.call (d : Dict V) (a : Alloc) : Call V → Reply V × Dict V × Alloc
  | .put key value => (.done (d.put a key value).1, (d.put a key value).2)
  | .get key => (.value (d.get key), d, a)
  | .contains key => (.found (d.contains key), d, a)
  | .delete key => (.value (d.delete a key).1, (d.delete a key).2)
  | .clear => (.cleared, d.clear, a)

/-- The replies to a list of calls. -/
def Dict.calls (d : Dict V) (a : Alloc) : List (Call V) → List (Reply V) × Dict V × Alloc
  | [] => ([], d, a)
  | c :: cs =>
    let (r, d, a) := d.call a c
    let (rs, d, a) := d.calls a cs
    (r :: rs, d, a)

/-- What a map answers to a call, and the map it is then; `refused` is whether memory was. -/
def Answers (refused : Prop) (m : Map V) : Call V → Reply V → Map V → Prop
  | .put key value, .done true, m' => m' = Function.update m key (some value)
  | .put key _, .done false, m' => m' = m ∧ m key = none ∧ (refused ∨ sizeMax - headerBytes < key.length)
  | .get key, .value v, m' => v = (m key).join ∧ m' = m
  | .contains key, .found b, m' => b = (m key).isSome ∧ m' = m
  | .delete key, .value v, m' => v = (m key).join ∧ m' = Function.update m key none
  | .clear, .cleared, m' => m' = fun _ => none
  | _, _, _ => False

/-- **Replies that are a map's**, one after the other, while the allocator goes from request to request. -/
inductive Follows (grant : Nat → Bool) : Nat → Map V → List (Call V) → List (Reply V) → Nat → Map V → Prop
  | nil {n : Nat} {m : Map V} : Follows grant n m [] [] n m
  | cons {n n' n'' : Nat} {m m' m'' : Map V} {c : Call V} {cs : List (Call V)} {r : Reply V} {rs : List (Reply V)}
      (head : Answers (∃ i, n ≤ i ∧ i < n' ∧ grant i = false) m c r m') (rest : Follows grant n' m' cs rs n'' m'') :
      Follows grant n m (c :: cs) (r :: rs) n'' m''

/-- **One call** answers as the map does that the dictionary holds. -/
theorem call_answers {d : Dict V} (hd : d.Sound) (a : Alloc) (c : Call V) :
    a.Follows (d.call a c).2.2 ∧ (d.call a c).2.1.Sound ∧
      Answers (Refused a (d.call a c).2.2) d.contents c (d.call a c).1 (d.call a c).2.1.contents := by
  cases c with
  | put key value =>
    obtain ⟨hfollows, hsound, hres⟩ := Dict.put_spec hd a key value
    refine ⟨hfollows, hsound, ?_⟩
    unfold Dict.call
    dsimp only
    generalize d.put a key value = out at hres
    obtain ⟨ok, d', a'⟩ := out
    cases ok with
    | true => exact hres
    | false => exact hres
  | get key => exact ⟨⟨rfl, le_refl _⟩, hd, d.get_eq key, rfl⟩
  | contains key => exact ⟨⟨rfl, le_refl _⟩, hd, d.contains_eq key, rfl⟩
  | delete key =>
    obtain ⟨hfollows, hsound, hvalue, hres⟩ := Dict.delete_spec hd a key
    exact ⟨hfollows, hsound, hvalue, hres⟩
  | clear => exact ⟨⟨rfl, le_refl _⟩, d.clear_spec.1, d.clear_spec.2⟩

theorem calls_sound (cs : List (Call V)) {d : Dict V} (hd : d.Sound) (a : Alloc) :
    (d.calls a cs).2.1.Sound ∧
      Follows a.grant a.asked d.contents cs (d.calls a cs).1 (d.calls a cs).2.2.asked (d.calls a cs).2.1.contents := by
  induction cs generalizing d a with
  | nil => exact ⟨hd, .nil⟩
  | cons c cs ih =>
    obtain ⟨hfollows, hsound, hanswer⟩ := call_answers hd a c
    obtain ⟨hend, hrest⟩ := ih hsound (d.call a c).2.2
    rw [hfollows.1] at hrest
    exact ⟨hend, .cons hanswer hrest⟩

/-- Two keys of one hash: the head of their chain goes, the other is still found. -/
example : ((Dict.init (fun _ _ => 7) 0 : Dict Nat).calls ⟨fun _ => true, 0⟩
    [.put [98] (some 2), .put [97] (some 1), .delete [97], .get [98], .contains [97]]).1 =
      [.done true, .done true, .value (some 1), .value (some 2), .found false] := rfl

/-! ## Iteration -/

/-- The entries of the chains are the map's, each once. -/
theorem entries_contents {d : Dict V} (hd : d.Indexed) :
    ((d.index.root.leaves.flatMap Prod.snd).map Entry.key).Nodup ∧
      ∀ key v, ⟨key, v⟩ ∈ d.index.root.leaves.flatMap Prod.snd ↔ d.contents key = some v := by
  constructor
  · rw [List.map_flatMap, List.nodup_flatMap]
    refine ⟨fun p hp => (hd.chains p hp).nodup, ?_⟩
    have hkeys := List.pairwise_map.mp (nodup_leaves hd.wf)
    refine hkeys.imp_of_mem fun {p q} hp hq hne => ?_
    rw [Function.onFun_apply, List.disjoint_left]
    intro k hkp hkq
    obtain ⟨e, he, rfl⟩ := List.mem_map.mp hkp
    obtain ⟨e', he', hsame⟩ := List.mem_map.mp hkq
    have hhash := (hd.chains q hq).hashes e' he'
    rw [hsame, (hd.chains p hp).hashes e he] at hhash
    exact hne hhash
  · intro key v
    rw [Dict.contents, lookup_iff (hd.chain_nodup _), List.mem_flatMap]
    constructor
    · rintro ⟨p, hp, hmem⟩
      have hhash := (hd.chains p hp).hashes _ hmem
      have hsearch : d.index.search p.1 = some p.2 := hd.search_iff.mpr hp
      rw [Dict.chain, hhash, hsearch]
      exact hmem
    · intro hmem
      cases hsearch : d.index.search (d.hash d.seed key) with
      | none =>
        rw [Dict.chain, hsearch] at hmem
        exact absurd hmem List.not_mem_nil
      | some c =>
        rw [Dict.chain, hsearch] at hmem
        exact ⟨_, hd.search_iff.mp hsearch, hmem⟩

/-- **The dictionary is a finite map**, under any hash function, any seed and any pattern of refusals. -/
theorem calls_follow (hash : UInt64 → Key → UInt64) (seed : UInt64) (grant : Nat → Bool) (cs : List (Call V)) :
    let out := (Dict.init hash seed : Dict V).calls ⟨grant, 0⟩ cs
    ∃ m : Map V, Follows grant 0 (fun _ => none) cs out.1 out.2.2.asked m ∧
      m.keys.Finite ∧ out.2.1.count = m.keys.ncard ∧
      ∃ es, Settles out.2.1.entries es ∧ (es.map Entry.key).Nodup ∧ ∀ key v, ⟨key, v⟩ ∈ es ↔ m key = some v := by
  intro out
  obtain ⟨hinit, hempty⟩ := Dict.sound_init (V := V) hash seed
  obtain ⟨hsound, hfollows⟩ := calls_sound cs hinit ⟨grant, 0⟩
  rw [hempty] at hfollows
  exact ⟨_, hfollows, hsound.finite, hsound.counted, _, entries_spec hsound.wf, entries_contents hsound.toIndexed⟩

end Bbq.Crt
