import Bbq.Crt.Leaves
import Bbq.Lib.Settle
import Mathlib.Data.Set.Card

/-!
# The string dictionary

`crt/bbq_dict.c`: a radix tree from the hashes of the keys to chains of entries.

* A chain is the list of its entries from the head; writing through `next` or into an entry gives the leaf
  another list. A value is a pointer, `none` for `NULL`.
* The hash function, the seed and the allocator are any. An entry takes 32 bytes of memory and more, so the count
  does not wrap.
* **`put_spec`**, **`delete_spec`**: what the operations do to the map that a dictionary holds.
-/

namespace Bbq.Crt

variable {V : Type}

/-- The bytes of a key. -/
abbrev Key := List UInt8

/-- `bbq_dict_node`: its `len` is the length of the key, and `hash` nothing reads. -/
structure Entry (V : Type) where
  key : Key
  value : Option V

/-- `sizeof(struct bbq_dict_node)`. -/
def headerBytes : Nat := 32

/-- `SIZE_MAX`. -/
def sizeMax : Nat := 2 ^ 64 - 1

/-- `bbq_mem_array_bytes`. -/
def memArrayBytes (n size : Nat) : Nat := if n = 0 ∨ size = 0 ∨ sizeMax / size < n then 0 else n * size

/-- `bbq_dict`. -/
structure Dict (V : Type) where
  index : HTree (List (Entry V))
  count : Nat
  hash : UInt64 → Key → UInt64
  seed : UInt64
  oom : Bool
  gen : UInt32

/-- `bbq_dict_init_hashed`. -/
def Dict.init (hash : UInt64 → Key → UInt64) (seed : UInt64) : Dict V :=
  { index := .init, count := 0, hash, seed, oom := false, gen := 0 }

/-- The loop of `find`: the entries before the key's, its entry, and the ones after. -/
def findIn (key : Key) : List (Entry V) → Option (List (Entry V) × Entry V × List (Entry V))
  | [] => none
  | e :: rest =>
    if e.key = key then some ([], e, rest)
    else (findIn key rest).map fun (before, n, after) => (e :: before, n, after)

namespace Dict

variable (d : Dict V)

/-- The chain of a hash. -/
def chain (h : UInt64) : List (Entry V) := (d.index.search h).getD []

def find (key : Key) (h : UInt64) : Option (List (Entry V) × Entry V × List (Entry V)) := findIn key (d.chain h)

def put (a : Alloc) (key : Key) (value : Option V) : Bool × Dict V × Alloc :=
  let h := d.hash d.seed key
  match d.find key h with
  | some (before, n, after) =>
    (true, { d with index := d.index.overwrite h (before ++ { n with value } :: after), gen := d.gen + 1 }, a)
  | none =>
    if sizeMax - headerBytes < key.length then (false, { d with oom := true }, a)
    else
      match a.request with
      | (false, a) => (false, { d with oom := true }, a)
      | (true, a) =>
        match d.index.insert a h ({ key, value } :: d.chain h) with
        | (true, index, a) => (true, { d with index, count := d.count + 1, gen := d.gen + 1 }, a)
        | (false, index, a) => (false, { d with index, oom := true }, a)

def get (key : Key) : Option V :=
  match d.find key (d.hash d.seed key) with
  | some (_, n, _) => n.value
  | none => none

def contains (key : Key) : Bool := (d.find key (d.hash d.seed key)).isSome

def delete (a : Alloc) (key : Key) : Option V × Dict V × Alloc :=
  let h := d.hash d.seed key
  match d.find key h with
  | none => (none, d, a)
  | some (prev :: before, n, after) =>
    let index := d.index.overwrite h (prev :: before ++ after)
    (n.value, { d with index, count := d.count - 1, gen := d.gen + 1 }, a)
  | some ([], n, next :: after) =>
    -- a new head
    match d.index.insert a h (next :: after) with
    | (true, index, a) => (n.value, { d with index, count := d.count - 1, gen := d.gen + 1 }, a)
    | (false, index, a) => (none, { d with index, oom := true }, a)
  | some ([], n, []) =>
    (n.value, { d with index := d.index.delete h, count := d.count - 1, gen := d.gen + 1 }, a)

def clear : Dict V := { d with index := d.index.clear, count := 0, gen := d.gen + 1 }

end Dict

/-- A map from byte strings to values, each a pointer. -/
abbrev Map (V : Type) := Key → Option (Option V)

/-- The keys of a map. -/
def Map.keys (m : Map V) : Set Key := { key | (m key).isSome }

/-! ## Chains -/

variable {c before after : List (Entry V)} {key : Key} {n : Entry V}

theorem findIn_some (h : findIn key c = some (before, n, after)) :
    c = before ++ n :: after ∧ n.key = key ∧ ∀ e ∈ before, e.key ≠ key := by
  induction c generalizing before with
  | nil => exact absurd h nofun
  | cons e rest ih =>
    unfold findIn at h
    split at h
    · next hk =>
      obtain ⟨rfl, hrest⟩ := Prod.mk.inj (Option.some.inj h)
      obtain ⟨rfl, rfl⟩ := Prod.mk.inj hrest
      exact ⟨rfl, hk, nofun⟩
    · next hk =>
      obtain ⟨⟨before, n, after⟩, hrest, hout⟩ := Option.map_eq_some_iff.mp h
      simp only [Prod.mk.injEq] at hout
      obtain ⟨rfl, rfl, rfl⟩ := hout
      obtain ⟨hc, hn, hbefore⟩ := ih hrest
      refine ⟨by rw [hc, List.cons_append], hn, ?_⟩
      rw [List.forall_mem_cons]
      exact ⟨hk, hbefore⟩

theorem findIn_none (h : findIn key c = none) : ∀ e ∈ c, e.key ≠ key := by
  induction c with
  | nil => exact nofun
  | cons e rest ih =>
    unfold findIn at h
    split at h
    · exact absurd h nofun
    · next hk =>
      rw [List.forall_mem_cons]
      exact ⟨hk, ih (Option.map_eq_none_iff.mp h)⟩

/-- What is stored for a key in a chain. -/
def lookup (key : Key) (c : List (Entry V)) : Option (Option V) := (findIn key c).map fun (_, n, _) => n.value

theorem lookup_none : lookup key c = none ↔ ∀ e ∈ c, e.key ≠ key := by
  rw [lookup, Option.map_eq_none_iff]
  refine ⟨findIn_none, fun h => ?_⟩
  rw [Option.eq_none_iff_forall_ne_some]
  rintro ⟨before, n, after⟩ hf
  obtain ⟨rfl, hn, -⟩ := findIn_some hf
  exact h n (List.mem_append_right before List.mem_cons_self) hn

theorem lookup_cons : lookup key (n :: c) = if n.key = key then some n.value else lookup key c := by
  rw [lookup, findIn]
  split
  · rfl
  · rw [Option.map_map]
    rfl

theorem lookup_append : lookup key (before ++ c) = (lookup key before).or (lookup key c) := by
  induction before with
  | nil => rfl
  | cons e rest ih =>
    rw [List.cons_append, lookup_cons, lookup_cons, ih]
    split
    · rfl
    · rfl

/-- The entries of a chain are what is looked up in it. -/
theorem lookup_iff (hc : (c.map Entry.key).Nodup) {v : Option V} : lookup key c = some v ↔ ⟨key, v⟩ ∈ c := by
  induction c with
  | nil => exact iff_of_false nofun List.not_mem_nil
  | cons e rest ih =>
    obtain ⟨hfresh, hrest⟩ := List.nodup_cons.mp hc
    rw [lookup_cons, List.mem_cons]
    split
    · next hk =>
      rw [Option.some.injEq]
      constructor
      · rintro rfl
        exact .inl (by rw [← hk])
      · rintro (rfl | hmem)
        · rfl
        · exact absurd (List.mem_map_of_mem hmem) (by rwa [← hk])
    · next hk =>
      rw [ih hrest]
      exact ⟨.inr, fun hmem => hmem.resolve_left fun heq => hk (by rw [← heq])⟩

/-! ## The map that a dictionary holds -/

/-- What is stored for a key. -/
def Dict.contents (d : Dict V) : Map V := fun key => lookup key (d.chain (d.hash d.seed key))

/-- A chain that belongs to the hash `h`. -/
structure Chained (hash : Key → UInt64) (h : UInt64) (c : List (Entry V)) : Prop where
  nonempty : c ≠ []
  hashes : ∀ e ∈ c, hash e.key = h
  nodup : (c.map Entry.key).Nodup

/-- The chains of a dictionary are where they belong. -/
structure Dict.Indexed (d : Dict V) : Prop where
  wf : d.index.root.Wf 0
  chains : ∀ p ∈ d.index.root.leaves, Chained (d.hash d.seed) p.1 p.2

/-- **The invariant.** -/
structure Dict.Sound (d : Dict V) : Prop extends d.Indexed where
  finite : d.contents.keys.Finite
  counted : d.count = d.contents.keys.ncard

theorem keys_put (m : Map V) (key : Key) (v : Option V) :
    Map.keys (Function.update m key (some v)) = insert key m.keys := by
  ext k
  rw [Set.mem_insert_iff, Map.keys, Map.keys, Set.mem_ofPred_eq, Set.mem_ofPred_eq, Function.update_apply]
  split
  · next hk => simp [hk]
  · next hk => simp [hk]

theorem keys_delete (m : Map V) (key : Key) : Map.keys (Function.update m key none) = m.keys \ {key} := by
  ext k
  rw [Set.mem_sdiff_singleton, Map.keys, Map.keys, Set.mem_ofPred_eq, Set.mem_ofPred_eq, Function.update_apply]
  split
  · next hk => simp [hk]
  · next hk => simp [hk]

namespace Dict

variable {d d' : Dict V} {h : UInt64} {x : Option (List (Entry V))} {r : Option (Option V)}

theorem Indexed.search_iff (hd : d.Indexed) : d.index.search h = some c ↔ (h, c) ∈ d.index.root.leaves :=
  findAt_iff hd.wf

/-- An entry's chain is the one its key's hash leads to. -/
theorem Indexed.chain_eq (hd : d.Indexed) (hf : d.find key h = some (before, n, after)) :
    (h, d.chain h) ∈ d.index.root.leaves ∧ Chained (d.hash d.seed) h (d.chain h) := by
  rw [find] at hf
  have hmem : (h, d.chain h) ∈ d.index.root.leaves := by
    rw [← hd.search_iff]
    unfold chain at hf ⊢
    cases hs : d.index.search h with
    | none =>
      rw [hs] at hf
      exact absurd hf nofun
    | some c => rfl
  exact ⟨hmem, hd.chains _ hmem⟩

theorem Indexed.chain_nil_or (hd : d.Indexed) (h : UInt64) :
    d.chain h = [] ∨ Chained (d.hash d.seed) h (d.chain h) := by
  unfold chain
  cases hs : d.index.search h with
  | none => exact .inl rfl
  | some c => exact .inr (hd.chains (h, c) (hd.search_iff.mp hs))

theorem Indexed.chain_hashes (hd : d.Indexed) (h : UInt64) : ∀ e ∈ d.chain h, d.hash d.seed e.key = h := by
  rcases hd.chain_nil_or h with hnil | hc
  · rw [hnil]
    exact nofun
  · exact hc.hashes

theorem Indexed.chain_nodup (hd : d.Indexed) (h : UInt64) : ((d.chain h).map Entry.key).Nodup := by
  rcases hd.chain_nil_or h with hnil | hc
  · rw [hnil]
    exact List.nodup_nil
  · exact hc.nodup

/-- **A change of one chain** is a change of one key, when it is one in the chain. -/
theorem Indexed.change (hd : d.Indexed) (hhash : d'.hash = d.hash) (hseed : d'.seed = d.seed)
    (hwf : d'.index.root.Wf 0) (hputs : Puts (d.hash d.seed key) x d.index.root d'.index.root)
    (hx : ∀ c, x = some c → Chained (d.hash d.seed) (d.hash d.seed key) c)
    (hlookup : ∀ k, lookup k (x.getD []) = if k = key then r else lookup k (d.chain (d.hash d.seed key))) :
    d'.Indexed ∧ d'.contents = Function.update d.contents key r := by
  refine ⟨⟨hwf, fun p hp => ?_⟩, ?_⟩
  · rw [hhash, hseed]
    rcases (hputs p).mp hp with ⟨hk, hval⟩ | ⟨hp, -⟩
    · rw [hk]
      exact hx _ hval
    · exact hd.chains p hp
  · funext k
    rw [contents, chain, HTree.search, hputs.findAt hd.wf hwf, hhash, hseed, Function.update_apply]
    by_cases hk : k = key
    · subst hk
      rw [if_pos rfl, hlookup, if_pos rfl, if_pos rfl]
    · rw [if_neg hk]
      split
      · next hsame => rw [hlookup, if_neg hk, contents, hsame]
      · rfl

/-- The count follows when a key is put. -/
theorem Sound.put_count (hd : d.Sound) (hi : d'.Indexed) {v : Option V}
    (hc : d'.contents = Function.update d.contents key (some v))
    (hcount : d'.count = if (d.contents key).isSome then d.count else d.count + 1) : d'.Sound := by
  have hkeys : d'.contents.keys = insert key d.contents.keys := by rw [hc, keys_put]
  refine ⟨hi, by rw [hkeys]; exact hd.finite.insert key, ?_⟩
  rw [hcount, hkeys]
  split
  · next hin =>
    have hmem : key ∈ d.contents.keys := hin
    rw [Set.insert_eq_of_mem hmem, hd.counted]
  · next hnot =>
    have hmem : key ∉ d.contents.keys := hnot
    rw [Set.ncard_insert_of_notMem hmem hd.finite, hd.counted]

/-- The count follows when a key is deleted. -/
theorem Sound.delete_count (hd : d.Sound) (hi : d'.Indexed) (hc : d'.contents = Function.update d.contents key none)
    (hcount : d'.count = d.count - 1) (hin : (d.contents key).isSome) : d'.Sound := by
  have hkeys : d'.contents.keys = d.contents.keys \ {key} := by rw [hc, keys_delete]
  refine ⟨hi, by rw [hkeys]; exact hd.finite.sdiff, ?_⟩
  have hmem : key ∈ d.contents.keys := hin
  rw [hcount, hkeys, Set.ncard_sdiff_singleton_of_mem hmem, hd.counted]

theorem sound_init (hash : UInt64 → Key → UInt64) (seed : UInt64) :
    (init hash seed : Dict V).Sound ∧ (init hash seed : Dict V).contents = fun _ => none := by
  have hnone : (init hash seed : Dict V).contents = fun _ => none := rfl
  have hkeys : Map.keys (fun _ => none : Map V) = ∅ := by
    ext k
    exact iff_of_false nofun nofun
  refine ⟨⟨⟨trivial, nofun⟩, ?_, ?_⟩, hnone⟩
  · rw [hnone, hkeys]
    exact Set.finite_empty
  · rw [hnone, hkeys, Set.ncard_empty]
    rfl

theorem clear_spec (d : Dict V) : d.clear.Sound ∧ d.clear.contents = fun _ => none := by
  obtain ⟨hempty, hnone⟩ := sound_init (V := V) d.hash d.seed
  exact ⟨⟨⟨trivial, nofun⟩, hempty.finite, hempty.counted⟩, hnone⟩

theorem get_eq (d : Dict V) (key : Key) : d.get key = (d.contents key).join := by
  rw [get, contents, lookup, find]
  cases findIn key (d.chain (d.hash d.seed key)) with
  | none => rfl
  | some f => rfl

theorem contains_eq (d : Dict V) (key : Key) : d.contains key = (d.contents key).isSome := by
  rw [contains, contents, lookup, find, Option.isSome_map]

theorem contents_eq (d : Dict V) (key : Key) :
    d.contents key = (d.find key (d.hash d.seed key)).map fun (_, n, _) => n.value := rfl

/-- An entry takes another value in place. -/
theorem Sound.overwrite (hd : d.Sound) {value : Option V}
    (hf : d.find key (d.hash d.seed key) = some (before, n, after)) :
    let d' := { d with
      index := d.index.overwrite (d.hash d.seed key) (before ++ { n with value } :: after)
      gen := d.gen + 1 }
    d'.Sound ∧ d'.contents = Function.update d.contents key (some value) := by
  intro d'
  obtain ⟨hmem, hchained⟩ := hd.chain_eq hf
  obtain ⟨hchain, hn, hbefore⟩ := findIn_some hf
  rw [hchain] at hchained
  obtain ⟨hwf, hputs⟩ := overwriteAt_spec hd.wf hmem
  have hx : Chained (d.hash d.seed) (d.hash d.seed key) (before ++ { n with value } :: after) := by
    refine ⟨by simp, fun e he => ?_, ?_⟩
    · rw [List.mem_append, List.mem_cons] at he
      rcases he with he | rfl | he
      · exact hchained.hashes e (List.mem_append_left _ he)
      · exact hchained.hashes n (List.mem_append_right _ List.mem_cons_self)
      · exact hchained.hashes e (List.mem_append_right _ (List.mem_cons_of_mem _ he))
    · have hkeys := hchained.nodup
      rw [List.map_append, List.map_cons] at hkeys ⊢
      exact hkeys
  have hlookup : ∀ k, lookup k (before ++ { n with value } :: after) =
      if k = key then some value else lookup k (d.chain (d.hash d.seed key)) := by
    intro k
    rw [hchain, lookup_append, lookup_append, lookup_cons, lookup_cons]
    by_cases hk : k = key
    · rw [hk, lookup_none.mpr hbefore, Option.none_or, if_pos hn, if_pos rfl]
    · have hne : n.key ≠ k := fun h => hk (by rw [← h, hn])
      rw [if_neg hne, if_neg hne, if_neg hk]
  have hchange : d'.Indexed ∧ d'.contents = Function.update d.contents key (some value) :=
    hd.change rfl rfl hwf hputs (fun c hc => by rwa [← Option.some.inj hc]) hlookup
  obtain ⟨hi, hc⟩ := hchange
  have hin : (d.contents key).isSome := by rw [contents_eq, hf]; rfl
  exact ⟨hd.put_count hi hc (if_pos hin).symm, hc⟩

/-- **The index takes a chain, or refuses it.** -/
theorem Indexed.index_insert (hd : d.Indexed) (a : Alloc) (h : UInt64) (c : List (Entry V)) :
    let out := d.index.insert a h c
    a.Follows out.2.2 ∧
      match out.1 with
      | true => out.2.1.root.Wf 0 ∧ Puts h (some c) d.index.root out.2.1.root
      | false => out.2.1.root = d.index.root ∧ Refused a out.2.2 := by
  have hspec := insertAt_spec a h c hd.wf (Nat.zero_le _) under_zero
  unfold HTree.insert
  generalize insertAt a h c d.index.root 0 = res at hspec
  obtain ⟨res, b⟩ := res
  cases res with
  | error fault => exact ⟨hspec.1, rfl, hspec.2⟩
  | ok res => exact hspec

/-- An entry goes in at the head of its chain. -/
theorem Sound.push (hd : d.Sound) (hf : d.find key (d.hash d.seed key) = none) {index : HTree (List (Entry V))}
    {value : Option V} (hwf : index.root.Wf 0)
    (hputs : Puts (d.hash d.seed key) (some ({ key, value } :: d.chain (d.hash d.seed key))) d.index.root index.root) :
    let d' := { d with index, count := d.count + 1, gen := d.gen + 1 }
    d'.Sound ∧ d'.contents = Function.update d.contents key (some value) := by
  intro d'
  have hfresh : ∀ e ∈ d.chain (d.hash d.seed key), e.key ≠ key := findIn_none hf
  have hx : Chained (d.hash d.seed) (d.hash d.seed key) ({ key, value } :: d.chain (d.hash d.seed key)) := by
    refine ⟨List.cons_ne_nil _ _, ?_, ?_⟩
    · rw [List.forall_mem_cons]
      exact ⟨rfl, hd.chain_hashes _⟩
    · rw [List.map_cons, List.nodup_cons]
      refine ⟨fun hmem => ?_, hd.chain_nodup _⟩
      obtain ⟨e, he, hkey⟩ := List.mem_map.mp hmem
      exact hfresh e he hkey
  have hlookup : ∀ k, lookup k ({ key, value } :: d.chain (d.hash d.seed key)) =
      if k = key then some value else lookup k (d.chain (d.hash d.seed key)) := by
    intro k
    rw [lookup_cons]
    exact if_congr eq_comm rfl rfl
  have hchange : d'.Indexed ∧ d'.contents = Function.update d.contents key (some value) :=
    hd.change rfl rfl hwf hputs (fun c hc => by rwa [← Option.some.inj hc]) hlookup
  obtain ⟨hi, hc⟩ := hchange
  have hnot : d.contents key = none := by rw [contents_eq, hf]; rfl
  exact ⟨hd.put_count hi hc (by rw [hnot]; rfl), hc⟩

/-- An entry is taken out of its chain. -/
theorem Sound.unlink (hd : d.Sound) (hf : d.find key (d.hash d.seed key) = some (before, n, after))
    (index : HTree (List (Entry V))) (hwf : index.root.Wf 0)
    (hputs : Puts (d.hash d.seed key) x d.index.root index.root)
    (hx : x = if before ++ after = [] then none else some (before ++ after)) :
    let d' := { d with index, count := d.count - 1, gen := d.gen + 1 }
    d'.Sound ∧ d'.contents = Function.update d.contents key none := by
  intro d'
  obtain ⟨-, hchained⟩ := hd.chain_eq hf
  obtain ⟨hchain, hn, hbefore⟩ := findIn_some hf
  rw [hchain] at hchained
  have hsub : List.Sublist (before ++ after) (before ++ n :: after) :=
    (List.Sublist.refl before).append (List.sublist_cons_self n after)
  have hafter : ∀ e ∈ after, e.key ≠ key := by
    intro e he hkey
    have hnodup := hchained.nodup
    rw [List.map_append, List.map_cons, List.nodup_append] at hnodup
    exact (List.nodup_cons.mp hnodup.2.1).1 (List.mem_map.mpr ⟨e, he, by rw [hkey, hn]⟩)
  have hgetD : x.getD [] = before ++ after := by
    rw [hx]
    split
    · next hnil => rw [hnil]; rfl
    · rfl
  have hrest : ∀ c, x = some c → Chained (d.hash d.seed) (d.hash d.seed key) c := by
    intro c hc
    rw [hx] at hc
    split at hc
    · exact absurd hc nofun
    · next hne =>
      obtain rfl := Option.some.inj hc
      exact ⟨hne, fun e he => hchained.hashes e (hsub.subset he), hchained.nodup.sublist (hsub.map _)⟩
  have hlookup : ∀ k, lookup k (x.getD []) = if k = key then none else lookup k (d.chain (d.hash d.seed key)) := by
    intro k
    rw [hgetD, hchain, lookup_append, lookup_append, lookup_cons]
    by_cases hk : k = key
    · rw [hk, lookup_none.mpr hbefore, lookup_none.mpr hafter, if_pos rfl, Option.none_or]
    · have hne : n.key ≠ k := fun h => hk (by rw [← h, hn])
      rw [if_neg hne, if_neg hk]
  have hchange : d'.Indexed ∧ d'.contents = Function.update d.contents key none :=
    hd.change rfl rfl hwf hputs hrest hlookup
  obtain ⟨hi, hc⟩ := hchange
  have hin : (d.contents key).isSome := by rw [contents_eq, hf]; rfl
  exact ⟨hd.delete_count hi hc rfl hin, hc⟩

/-- With the same tree a dictionary holds the same map. -/
theorem Sound.same (hd : d.Sound) (d' : Dict V) (hroot : d'.index.root = d.index.root) (hhash : d'.hash = d.hash)
    (hseed : d'.seed = d.seed) (hcount : d'.count = d.count) : d'.Sound ∧ d'.contents = d.contents := by
  have hc : d'.contents = d.contents := by
    funext k
    rw [contents, contents, chain, chain, HTree.search, HTree.search, hroot, hhash, hseed]
  refine ⟨⟨⟨by rw [hroot]; exact hd.wf, ?_⟩, by rw [hc]; exact hd.finite, by rw [hc, hcount]; exact hd.counted⟩, hc⟩
  rw [hroot, hhash, hseed]
  exact hd.chains

/-- **Putting** a key: it has the value then, or the map is as it was. -/
theorem put_spec (hd : d.Sound) (a : Alloc) (key : Key) (value : Option V) :
    a.Follows (d.put a key value).2.2 ∧ (d.put a key value).2.1.Sound ∧
      match (d.put a key value).1 with
      | true => (d.put a key value).2.1.contents = Function.update d.contents key (some value)
      | false =>
        (d.put a key value).2.1.contents = d.contents ∧ d.contents key = none ∧
          (Refused a (d.put a key value).2.2 ∨ sizeMax - headerBytes < key.length) := by
  have hcontents := d.contents_eq key
  unfold put
  dsimp only
  split
  · next before n after hf =>
    obtain ⟨hsound, hc⟩ := hd.overwrite hf
    exact ⟨⟨rfl, le_refl _⟩, hsound, hc⟩
  · next hf =>
    rw [hf] at hcontents
    split
    · next hlong =>
      obtain ⟨hsound, hc⟩ := hd.same { d with oom := true } rfl rfl rfl rfl
      exact ⟨⟨rfl, le_refl _⟩, hsound, hc, hcontents, .inr hlong⟩
    · have hfollows := request_follows a
      have hrefused := request_refused (a := a)
      generalize a.request = r at hfollows hrefused
      obtain ⟨ok, b⟩ := r
      cases ok with
      | false =>
        obtain ⟨hsound, hc⟩ := hd.same { d with oom := true } rfl rfl rfl rfl
        exact ⟨hfollows, hsound, hc, hcontents, .inl (hrefused rfl)⟩
      | true =>
        have hinsert := hd.toIndexed.index_insert b (d.hash d.seed key) ({ key, value } :: d.chain (d.hash d.seed key))
        dsimp only at hinsert ⊢
        generalize d.index.insert b (d.hash d.seed key) ({ key, value } :: d.chain (d.hash d.seed key)) = out at hinsert
        obtain ⟨ok, index, e⟩ := out
        obtain ⟨hfollows', hout⟩ := hinsert
        have hall : a.Follows e := ⟨hfollows'.1.trans hfollows.1, le_trans hfollows.2 hfollows'.2⟩
        cases ok with
        | false =>
          obtain ⟨hsound, hc⟩ := hd.same { d with index, oom := true } hout.1 rfl rfl rfl
          obtain ⟨m, hlow, hhigh, hm⟩ := hout.2
          refine ⟨hall, hsound, hc, hcontents, .inl ⟨m, le_trans hfollows.2 hlow, hhigh, ?_⟩⟩
          rw [← hfollows.1]
          exact hm
        | true =>
          obtain ⟨hsound, hc⟩ := hd.push hf hout.1 hout.2
          exact ⟨hall, hsound, hc⟩

/-- **Deleting** a key: its value comes back, and the key is gone. -/
theorem delete_spec (hd : d.Sound) (a : Alloc) (key : Key) :
    a.Follows (d.delete a key).2.2 ∧ (d.delete a key).2.1.Sound ∧ (d.delete a key).1 = (d.contents key).join ∧
      (d.delete a key).2.1.contents = Function.update d.contents key none := by
  have hcontents := d.contents_eq key
  unfold delete
  dsimp only
  split
  · next hf =>
    rw [hf] at hcontents
    refine ⟨⟨rfl, le_refl _⟩, hd, by rw [hcontents]; rfl, ?_⟩
    have hself : d.contents = Function.update d.contents key (d.contents key) := (Function.update_eq_self _ _).symm
    rw [hcontents] at hself
    exact hself
  · next prev before n after hf =>
    rw [hf] at hcontents
    obtain ⟨hmem, -⟩ := hd.chain_eq hf
    obtain ⟨hwf, hputs⟩ := overwriteAt_spec hd.wf hmem
    obtain ⟨hsound, hc⟩ := hd.unlink hf (d.index.overwrite (d.hash d.seed key) (prev :: before ++ after)) hwf
      hputs (if_neg (by simp)).symm
    exact ⟨⟨rfl, le_refl _⟩, hsound, by rw [hcontents]; rfl, hc⟩
  · next n next after hf =>
    rw [hf] at hcontents
    obtain ⟨hmem, -⟩ := hd.chain_eq hf
    -- the leaf of the hash is there, so that nothing is requested
    obtain ⟨t', ht'⟩ := insertAt_present a (next :: after) hd.wf hmem
    have hspec := insertAt_spec a (d.hash d.seed key) (next :: after) hd.wf (Nat.zero_le _) under_zero
    rw [ht'] at hspec
    unfold HTree.insert
    rw [ht']
    obtain ⟨hsound, hc⟩ := hd.unlink hf { d.index with root := t', gen := d.index.gen + 1 } hspec.2.1 hspec.2.2
      (if_neg (by simp)).symm
    exact ⟨⟨rfl, le_refl _⟩, hsound, by rw [hcontents]; rfl, hc⟩
  · next n hf =>
    rw [hf] at hcontents
    obtain ⟨hmem, -⟩ := hd.chain_eq hf
    have hspec := deleteAt_spec (d.hash d.seed key) hd.wf
    have hindex : (d.index.delete (d.hash d.seed key)).root.Wf 0 ∧
        Puts (d.hash d.seed key) none d.index.root (d.index.delete (d.hash d.seed key)).root := by
      unfold HTree.delete
      generalize deleteAt (d.hash d.seed key) d.index.root 0 = res at hspec
      match res with
      | none => exact absurd hmem (hspec _)
      | some (root, _, _) => exact hspec
    obtain ⟨hsound, hc⟩ := hd.unlink hf _ hindex.1 hindex.2 (if_pos rfl).symm
    exact ⟨⟨rfl, le_refl _⟩, hsound, by rw [hcontents]; rfl, hc⟩

end Dict

end Bbq.Crt
